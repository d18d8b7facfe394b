/-
Who signed: the signer infos of PKCS#7 and CMS messages.

A signer info names a certificate by its issuer and serial number, or, in CMS, by its subject
key identifier.  The serial number of a message is read as an unsigned number whatever its
first bit says, and kept without leading zeros; the contents octets it came from are kept
beside it here, so that a theorem can speak about the number the message has.
-/
import OsSecurity.X509.Certificate
import OsSecurity.Bigint.Octets

namespace OsSecurity

/-! ### Issuer and serial number -/

/-- `contents` is not in the source: the octets of the INTEGER that the serial number was
read from, of which `iSerialNumber` keeps the unsigned value. -/
structure CPKCS7IssuerAndSerialNumber where
  iIssuerName : CX500DistinguishedName
  iSerialNumber : Bytes
  contents : Bytes
  read : Der.value iSerialNumber = Der.value contents

namespace CPKCS7IssuerAndSerialNumber

/-- The serial number as `DecodeDERLongL` and `BufferLC` give it. -/
def ofContents (iIssuerName : CX500DistinguishedName) (contents : Bytes) :
    Leaving CPKCS7IssuerAndSerialNumber :=
  match h : (TInteger.newDesL contents).bufferLC with
  | .ok iSerialNumber => .ok {
      iIssuerName, iSerialNumber, contents
      read := by
        rw [TInteger.bufferLC_eq (TInteger.isNegative_newDesL contents), Except.ok.injEq] at h
        rw [← h, Der.value_octets, TInteger.magnitude_newDesL] }
  | .error e => .error e

/-- `ConstructL(CX500DistinguishedName*, const TDesC8&)`, for a certificate's own name and
number. -/
def construct (iIssuerName : CX500DistinguishedName) (aSerialNumber : Bytes) :
    CPKCS7IssuerAndSerialNumber where
  iIssuerName := iIssuerName
  iSerialNumber := aSerialNumber
  contents := aSerialNumber
  read := rfl

end CPKCS7IssuerAndSerialNumber

/-! ### The signers of CMS messages -/

inductive CCmsSignerIdentifier where
  | EIssuerAndSerialNumber (iIssuerAndSerialNumber : CPKCS7IssuerAndSerialNumber)
  | ESubjectKeyIdentifier (iSubjectKeyIdExt : Bytes)

structure CCmsSignerInfo where
  iVersion : Int
  iSignerIdentifier : CCmsSignerIdentifier
  iDigestAlgorithm : CAlgorithmIdentifier
  iSignedAttributesPresent : Bool
  iSignatureAlgorithm : CAlgorithmIdentifier
  iSignatureValue : Bytes
  iUnsignedAttributesPresent : Bool

/-! ### The signers of PKCS#7 messages -/

structure CPKCS7SignerInfo where
  iVersion : Int
  iIssuerAndSerialNumber : CPKCS7IssuerAndSerialNumber
  iDigestAlgorithm : CAlgorithmIdentifier
  iDigestEncryptionAlgorithm : CAlgorithmIdentifier
  iEncryptedDigest : Bytes

end OsSecurity
