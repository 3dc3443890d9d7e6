/-!
# Tags

The CBOR tags of keys, paths, script functions, accounts and requests.
-/

namespace WalletExchange.Cbor.Tag

def hdKey : UInt64 := 303
def keyPath : UInt64 := 304
def coinInfo : UInt64 := 305
def ecKey : UInt64 := 306
def address : UInt64 := 307
def output : UInt64 := 308
def account : UInt64 := 311
def scriptHash : UInt64 := 400
def witnessScriptHash : UInt64 := 401
def publicKey : UInt64 := 402
def publicKeyHash : UInt64 := 403
def witnessPublicKeyHash : UInt64 := 404
def combo : UInt64 := 405
def multisig : UInt64 := 406
def sortedMultisig : UInt64 := 407
def rawScript : UInt64 := 408
def taproot : UInt64 := 409
def cosigner : UInt64 := 410
def keyRequest : UInt64 := 501

end WalletExchange.Cbor.Tag
