import OsSecurity.Asn1.CachedLengths
import OsSecurity.Asn1.Children
import OsSecurity.Asn1.Integers
import OsSecurity.Asn1.ObjectIdentifiers
import OsSecurity.Asn1.TimeForms
import OsSecurity.X509.NameMatch
import OsSecurity.Pkix.ExplicitPolicy
import OsSecurity.Pkix.InitialPolicies
import OsSecurity.Pkix.Acceptance
import OsSecurity.Wtls.Soundness
import OsSecurity.Pkcs7.SignerValidation
import OsSecurity.Bigint.DivideAssertions
import OsSecurity.Bigint.GreatestCommonDivisor
import OsSecurity.Bigint.InPlaceReduce
import OsSecurity.Bigint.Operators
import OsSecurity.Bigint.PrimalityTest
import OsSecurity.Bigint.Schoolbook
import OsSecurity.Crypto.CipherLeaves
import OsSecurity.Crypto.CmacCodes
import OsSecurity.Crypto.Des
import OsSecurity.Crypto.DiffieHellman
import OsSecurity.Crypto.DsaPrimes
import OsSecurity.Crypto.HmacCodes
import OsSecurity.Crypto.PbeRoundTrip
import OsSecurity.Crypto.Pkcs12Kdf
import OsSecurity.Crypto.Rc2
import OsSecurity.Caf.Bitset
import OsSecurity.Caf.StringAttributeSet
import OsSecurity.Certapp.CommandLine
import OsSecurity.Certapp.Destinations
import OsSecurity.Certapp.FileStoreRoundTrip
import OsSecurity.Certstore.ByIssuer
import OsSecurity.Certstore.Discovery
import OsSecurity.Certstore.Eclipsing
import OsSecurity.Tokens.CertStoreTransactions
import OsSecurity.Tokens.KeyStoreSenders
import OsSecurity.Scs.Handles
import OsSecurity.Scs.Requests
import OsSecurity.Ups.DbHandles
import OsSecurity.Ups.PolicyCleanUp
import OsSecurity.Ups.RequestRuns
import OsSecurity.Ups.StatementMeaning
import OsSecurity.Ups.UpdateDecision
