import WalletExchange.Account.Bundle
import WalletExchange.Proofs.Account.Catalogue
import WalletExchange.Proofs.Account.Messages
import WalletExchange.Proofs.Account.Request
import WalletExchange.Proofs.Account.Transfer
import WalletExchange.Proofs.Checked.Readers
import WalletExchange.Proofs.Descriptor.AddressWords
import WalletExchange.Proofs.Descriptor.Addresses
import WalletExchange.Proofs.Descriptor.Attempts
import WalletExchange.Proofs.Descriptor.Choices
import WalletExchange.Proofs.Descriptor.Corruption
import WalletExchange.Proofs.Descriptor.Faults
import WalletExchange.Proofs.Descriptor.KeyExchange
import WalletExchange.Proofs.Descriptor.Multisig
import WalletExchange.Proofs.Descriptor.Origins
import WalletExchange.Proofs.Descriptor.Payment
import WalletExchange.Proofs.Descriptor.Readers
import WalletExchange.Proofs.Descriptor.Requests
import WalletExchange.Proofs.Descriptor.Respelling
import WalletExchange.Proofs.Descriptor.Segwit
import WalletExchange.Proofs.Key.Forwarding
import WalletExchange.Proofs.Key.Routes
import WalletExchange.Proofs.Path.Depth
import WalletExchange.Proofs.Path.Obtained
import WalletExchange.Proofs.Path.Patterns
import WalletExchange.Proofs.Path.TemplateText
import WalletExchange.Proofs.Script.Exchange
