import WalletExchange.Hash.Ripemd160
import WalletExchange.Hash.Sha2

/-!
# Digests of keys and scripts

The digest of twenty bytes that stands for a public key or a script.
-/

namespace WalletExchange

/-- RIPEMD-160 of SHA-256. -/
def hash160 (message : Bytes) : Block 20 := Ripemd160.digest (Sha2.sha256 message).bytes

end WalletExchange
