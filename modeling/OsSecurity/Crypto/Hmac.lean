/-
`CHMacImpl`, the keyed hash over any of the hashes there are.

It keeps the inner pad in the digest.  `Hash` finishes the digest to find a code and goes on
behind it, with `StoreState` and `RestoreState` of the hash around; `Final` starts afresh.

`Serves` is what it asks of a hash.  A hash that brings back what it has stored makes it
return the codes of all that has been fed; one that brings back a part of it (`keep`), as the
hash of `md2impl.cpp` does, those of the part (`Keyed.callsL`).
-/
import OsSecurity.Crypto.Digests
import OsSecurity.Crypto.MD2

namespace OsSecurity

open List

variable {d : HmacData} {calls : List HmacCall} {aMessage : Bytes}

/-- `MSoftwareHash`, the interface of a hash. -/
structure MSoftwareHash where
  Object : Type
  /-- `iBlockSize` of the characteristics, in octets -/
  blockSize : Nat
  reset : Object → Object
  update : Object → Bytes → Leaving Object
  hash : Object → Bytes → Leaving (Object × Bytes)
  final : Object → Bytes → Leaving (Object × Bytes)
  storeState : Object → Object
  restoreState : Object → Object

/-- A magic number over every octet of a pad. -/
def xorMagic (magic : UInt8) (pad : Bytes) : Bytes := pad.map (· ^^^ magic)

structure CHMacImpl (plugin : MSoftwareHash) where
  iDigest : plugin.Object
  iInnerPad : Bytes
  iOuterPad : Bytes
  iInnerPadCopy : Bytes
  iOuterPadCopy : Bytes

namespace CHMacImpl

variable {plugin : MSoftwareHash}

/-- A key that is longer than a block is hashed. -/
def shortKey (iDigest : plugin.Object) (aKey : Bytes) : Leaving (plugin.Object × Bytes) :=
  if aKey.length > plugin.blockSize then plugin.final iDigest aKey else .ok (iDigest, aKey)

def initialise (o : CHMacImpl plugin) (aKey : Bytes) : Leaving (CHMacImpl plugin) := do
  let (iDigest, iKey) ← shortKey (plugin.reset o.iDigest) aKey
  let iPad := iKey ++ replicate (plugin.blockSize - iKey.length) 0
  let iInnerPad := xorMagic 0x36 iPad
  let iOuterPad := xorMagic 0x5c iPad
  -- start inner hash
  let (iDigest, _) ← plugin.hash iDigest iInnerPad
  return { o with iDigest := iDigest, iInnerPad := iInnerPad, iOuterPad := iOuterPad }

/-- `NewL`, with the hash that `ReplicateL` has made. -/
def newL (iDigest : plugin.Object) (aKey : Bytes) : Leaving (CHMacImpl plugin) :=
  initialise ⟨iDigest, [], [], [], []⟩ aKey

def reset (o : CHMacImpl plugin) : Leaving (CHMacImpl plugin) := do
  let iDigest ← plugin.update (plugin.reset o.iDigest) o.iInnerPad
  return { o with iDigest := iDigest }

def storeState (o : CHMacImpl plugin) : CHMacImpl plugin :=
  { o with
    iOuterPadCopy := o.iOuterPad
    iInnerPadCopy := o.iInnerPad
    iDigest := plugin.storeState o.iDigest }

def restoreState (o : CHMacImpl plugin) : CHMacImpl plugin :=
  { o with
    iOuterPad := o.iOuterPadCopy
    iInnerPad := o.iInnerPadCopy
    iDigest := plugin.restoreState o.iDigest }

def update (o : CHMacImpl plugin) (aMessage : Bytes) : Leaving (CHMacImpl plugin) := do
  let iDigest ← plugin.update o.iDigest aMessage
  return { o with iDigest := iDigest }

/-- The digest of the message, and that of the outer pad and it. -/
def outerHash (o : CHMacImpl plugin) (aMessage : Bytes) :
    Leaving (CHMacImpl plugin × Bytes) := do
  let (iDigest, ptr) ← plugin.final o.iDigest aMessage
  let iDigest ← plugin.update iDigest o.iOuterPad
  let (iDigest, finalPtr) ← plugin.final iDigest ptr
  return ({ o with iDigest := iDigest }, finalPtr)

def hash (o : CHMacImpl plugin) (aMessage : Bytes) : Leaving (CHMacImpl plugin × Bytes) := do
  let (o, finalPtr) ← o.storeState.outerHash aMessage
  let o ← o.restoreState.update aMessage
  return (o, finalPtr)

/-- What it returns points into the hash, where the second digest is by then. -/
def final (o : CHMacImpl plugin) (aMessage : Bytes) : Leaving (CHMacImpl plugin × Bytes) := do
  let (o, ptr) ← o.outerHash aMessage
  let o ← o.reset
  return (o, ptr)

end CHMacImpl

/-- A call to a keyed hash. -/
inductive HmacCall where
  | update (aMessage : Bytes)
  | hash (aMessage : Bytes)
  | final (aMessage : Bytes)
  | reset
  | setKeyL (aKey : Bytes)

namespace CHMacImpl

variable {plugin : MSoftwareHash}

/-- One call, with the code that it returns. -/
def callL (o : CHMacImpl plugin) : HmacCall → Leaving (CHMacImpl plugin × List Bytes)
  | .update aMessage => do
    let o ← o.update aMessage
    return (o, [])
  | .hash aMessage => do
    let (o, ptr) ← o.hash aMessage
    return (o, [ptr])
  | .final aMessage => do
    let (o, ptr) ← o.final aMessage
    return (o, [ptr])
  | .reset => do
    let o ← o.reset
    return (o, [])
  | .setKeyL aKey => do
    let o ← o.initialise aKey
    return (o, [])

/-- Calls one after the other, and all codes. -/
def callsL (o : CHMacImpl plugin) : List HmacCall → Leaving (CHMacImpl plugin × List Bytes)
  | [] => .ok (o, [])
  | call :: calls => do
    let (o, now) ← o.callL call
    let (o, rest) ← o.callsL calls
    return (o, now ++ rest)

end CHMacImpl

/-! ### What it is to compute -/

/-- The block that a key is made to. -/
def hmacKey (H : Bytes → Bytes) (size : Nat) (key : Bytes) : Bytes :=
  let short := if key.length > size then H key else key
  short ++ replicate (size - short.length) 0

/-- The keyed hash over a hash with blocks of `size` octets. -/
def hmac (H : Bytes → Bytes) (size : Nat) (key msg : Bytes) : Bytes :=
  H (xorMagic 0x5c (hmacKey H size key) ++ H (xorMagic 0x36 (hmacKey H size key) ++ msg))

/-- A key, and what has been fed since the last reset. -/
structure HmacData where
  key : Bytes
  msg : Bytes

namespace HmacCall

/-- The data after a call, where `keep` is left of a message behind a code. -/
def leaves (keep : Bytes → Bytes) (d : HmacData) : HmacCall → HmacData
  | update aMessage => { d with msg := d.msg ++ aMessage }
  | hash aMessage => { d with msg := keep d.msg ++ aMessage }
  | final _ => { d with msg := [] }
  | reset => { d with msg := [] }
  | setKeyL aKey => ⟨aKey, []⟩

/-- What a call returns the code of. -/
def coded (d : HmacData) : HmacCall → List HmacData
  | update _ => []
  | hash aMessage => [{ d with msg := d.msg ++ aMessage }]
  | final aMessage => [{ d with msg := d.msg ++ aMessage }]
  | reset => []
  | setKeyL _ => []

/-- All codes of a run, each of what is there by then. -/
def codes (keep : Bytes → Bytes) (d : HmacData) : List HmacCall → List HmacData
  | [] => []
  | call :: calls => call.coded d ++ codes keep (call.leaves keep d) calls

/-- A condition on every call of a run, with the data that it is made on. -/
def Along (P : HmacData → HmacCall → Prop) (keep : Bytes → Bytes) (d : HmacData) :
    List HmacCall → Prop
  | [] => True
  | call :: calls => P d call ∧ Along P keep (call.leaves keep d) calls

/-- The hash takes what it is given in a call. -/
def Takes (within : Nat → Prop) (size : Nat) (d : HmacData) : HmacCall → Prop
  | update aMessage => within (size + (d.msg ++ aMessage).length)
  | hash aMessage => within (size + (d.msg ++ aMessage).length)
  | final aMessage => within (size + (d.msg ++ aMessage).length)
  | reset => True
  | setKeyL aKey => within aKey.length

theorem Along.mono {P Q : HmacData → HmacCall → Prop} {keep : Bytes → Bytes}
    (himp : ∀ d call, P d call → Q d call) (h : Along P keep d calls) : Along Q keep d calls := by
  induction calls generalizing d with
  | nil => trivial
  | cons call calls ih => exact ⟨himp d call h.1, ih h.2⟩

section

variable {keep keep' : Bytes → Bytes}
  (h : Along (fun d call => call.leaves keep d = call.leaves keep' d) keep' d calls)
include h

/-- Two ways of keeping that agree on all that a run keeps make the same run. -/
theorem codes_congr : codes keep d calls = codes keep' d calls := by
  induction calls generalizing d with
  | nil => rfl
  | cons call calls ih =>
      unfold codes
      rw [h.1, ih h.2]

theorem along_congr {P : HmacData → HmacCall → Prop} (hP : Along P keep' d calls) :
    Along P keep d calls := by
  induction calls generalizing d with
  | nil => trivial
  | cons call calls ih =>
      refine ⟨hP.1, ?_⟩
      rw [h.1]
      exact ih h.2 hP.2

end

end HmacCall

/-- What a hash has to do for it.  `Fed` says what it has been given, and `Stored` what the one
was given that it holds the copies of. -/
structure Serves (plugin : MSoftwareHash) (H : Bytes → Bytes) (within : Nat → Prop)
    (keep : Bytes → Bytes) (Fed Stored : Bytes → plugin.Object → Prop) : Prop where
  reset : ∀ o, Fed [] (plugin.reset o)
  update : ∀ msg o aMessage, Fed msg o → within (msg ++ aMessage).length →
    ∃ next, plugin.update o aMessage = .ok next ∧ Fed (msg ++ aMessage) next ∧
      ∀ stored, Stored stored o → Stored stored next
  hash : ∀ msg o aMessage, Fed msg o → within (msg ++ aMessage).length →
    ∃ next, plugin.hash o aMessage = .ok (next, H (msg ++ aMessage)) ∧ Fed (msg ++ aMessage) next
  final : ∀ msg o aMessage, Fed msg o → within (msg ++ aMessage).length →
    ∃ next, plugin.final o aMessage = .ok (next, H (msg ++ aMessage)) ∧ Fed [] next ∧
      ∀ stored, Stored stored o → Stored stored next
  store : ∀ msg o, Fed msg o →
    Fed msg (plugin.storeState o) ∧ Stored msg (plugin.storeState o)
  restore : ∀ msg o, Fed [] o → Stored msg o → Fed (keep msg) (plugin.restoreState o)
  /-- what is kept behind a whole block is the block and what is kept of the rest -/
  keep_block : ∀ block msg : Bytes, block.length = plugin.blockSize →
    keep (block ++ msg) = block ++ keep msg
  keep_length : ∀ msg, (keep msg).length ≤ msg.length
  within_le : ∀ m n, m ≤ n → within n → within m
  digest_length : ∀ msg, (H msg).length ≤ plugin.blockSize
  outer : within (plugin.blockSize + plugin.blockSize)

namespace CHMacImpl

variable {plugin : MSoftwareHash} {H : Bytes → Bytes} {within : Nat → Prop}
  {keep : Bytes → Bytes} {Fed Stored : Bytes → plugin.Object → Prop} {o : CHMacImpl plugin}

/-- The keyed hash has the key and has been given the message. -/
structure Keyed (H : Bytes → Bytes) (Fed : Bytes → plugin.Object → Prop) (d : HmacData)
    (o : CHMacImpl plugin) : Prop where
  inner : o.iInnerPad = xorMagic 0x36 (hmacKey H plugin.blockSize d.key)
  outer : o.iOuterPad = xorMagic 0x5c (hmacKey H plugin.blockSize d.key)
  fed : Fed (o.iInnerPad ++ d.msg) o.iDigest

@[simp] theorem length_xorMagic (magic : UInt8) (pad : Bytes) :
    (xorMagic magic pad).length = pad.length := by
  simp [xorMagic]

section

variable (h : Serves plugin H within keep Fed Stored)
include h

/-- The block of a key is a block. -/
theorem length_hmacKey (key : Bytes) :
    (hmacKey H plugin.blockSize key).length = plugin.blockSize := by
  have hdigest := h.digest_length key
  unfold hmacKey
  by_cases hlong : key.length > plugin.blockSize
  · rw [if_pos hlong, length_append, length_replicate]
    omega
  · rw [if_neg hlong, length_append, length_replicate]
    omega

/-- **`Initialise`.** -/
theorem keyed_initialise (o : CHMacImpl plugin) {aKey : Bytes} (hkey : within aKey.length) :
    ∃ next, o.initialise aKey = .ok next ∧ Keyed H Fed ⟨aKey, []⟩ next := by
  -- the digest is as after a reset, whether it has hashed the key or not
  obtain ⟨iDigest, hshort, hfed⟩ : ∃ iDigest, shortKey (plugin.reset o.iDigest) aKey =
      .ok (iDigest, if aKey.length > plugin.blockSize then H aKey else aKey) ∧
        Fed [] iDigest := by
    unfold shortKey
    by_cases hlong : aKey.length > plugin.blockSize
    · obtain ⟨next, hfinal, hnext, -⟩ :=
        h.final [] (plugin.reset o.iDigest) aKey (h.reset _) hkey
      rw [if_pos hlong, if_pos hlong]
      exact ⟨next, hfinal, hnext⟩
    · rw [if_neg hlong, if_neg hlong]
      exact ⟨_, rfl, h.reset _⟩
  have hblock : (xorMagic 0x36 (hmacKey H plugin.blockSize aKey)).length = plugin.blockSize := by
    rw [length_xorMagic, length_hmacKey h]
  obtain ⟨next, hhash, hnext⟩ := h.hash [] iDigest
    (xorMagic 0x36 (hmacKey H plugin.blockSize aKey)) hfed
    (by
      rw [nil_append, hblock]
      exact h.within_le _ _ (Nat.le_add_right _ _) h.outer)
  refine ⟨{ o with
    iDigest := next
    iInnerPad := xorMagic 0x36 (hmacKey H plugin.blockSize aKey)
    iOuterPad := xorMagic 0x5c (hmacKey H plugin.blockSize aKey) }, ?_, rfl, rfl, ?_⟩
  · unfold initialise
    rw [hshort]
    simp only [ok_bind]
    unfold hmacKey at hhash
    simp only at hhash
    rw [hhash]
    rfl
  · rw [append_nil]
    exact hnext

section

variable (ho : Keyed H Fed d o)
include ho

/-- **`Reset`.** -/
theorem Keyed.reset (iDigest : plugin.Object) :
    ∃ next, CHMacImpl.reset { o with iDigest := iDigest } = .ok next ∧
      Keyed H Fed { d with msg := [] } next := by
  have hblock : o.iInnerPad.length = plugin.blockSize := by
    rw [ho.inner, length_xorMagic, length_hmacKey h]
  obtain ⟨next, hupdate, hnext, -⟩ :=
    h.update [] (plugin.reset iDigest) o.iInnerPad (h.reset _) (by
      rw [nil_append, hblock]
      exact h.within_le _ _ (Nat.le_add_right _ _) h.outer)
  refine ⟨{ o with iDigest := next }, ?_, ho.inner, ho.outer, ?_⟩
  · unfold CHMacImpl.reset
    rw [hupdate]
    rfl
  · rw [append_nil]
    exact hnext

/-- **`Update`.** -/
theorem Keyed.update (hwithin : within (plugin.blockSize + (d.msg ++ aMessage).length)) :
    ∃ next, o.update aMessage = .ok next ∧
      Keyed H Fed { d with msg := d.msg ++ aMessage } next := by
  have hblock : o.iInnerPad.length = plugin.blockSize := by
    rw [ho.inner, length_xorMagic, length_hmacKey h]
  obtain ⟨next, hupdate, hnext, -⟩ := h.update _ _ aMessage ho.fed (by
    rw [List.append_assoc, length_append, hblock]
    exact hwithin)
  refine ⟨{ o with iDigest := next }, ?_, ho.inner, ho.outer, ?_⟩
  · unfold CHMacImpl.update
    rw [hupdate]
    rfl
  · rw [List.append_assoc] at hnext
    exact hnext

/-- The code is found, and the copies are as they were. -/
theorem Keyed.outerHash (hwithin : within (plugin.blockSize + (d.msg ++ aMessage).length)) :
    ∃ iDigest, o.outerHash aMessage = .ok ({ o with iDigest := iDigest },
        hmac H plugin.blockSize d.key (d.msg ++ aMessage)) ∧
      Fed [] iDigest ∧ ∀ stored, Stored stored o.iDigest → Stored stored iDigest := by
  have hinner : o.iInnerPad.length = plugin.blockSize := by
    rw [ho.inner, length_xorMagic, length_hmacKey h]
  have houter : o.iOuterPad.length = plugin.blockSize := by
    rw [ho.outer, length_xorMagic, length_hmacKey h]
  obtain ⟨first, hfirst, hfirstFed, hfirstStored⟩ := h.final _ _ aMessage ho.fed (by
    rw [List.append_assoc, length_append, hinner]
    exact hwithin)
  obtain ⟨pad, hpad, hpadFed, hpadStored⟩ := h.update [] first o.iOuterPad hfirstFed (by
    rw [nil_append, houter]
    exact h.within_le _ _ (Nat.le_add_right _ _) h.outer)
  obtain ⟨last, hlast, hlastFed, hlastStored⟩ := h.final _ pad
    (H (o.iInnerPad ++ d.msg ++ aMessage)) hpadFed (by
      rw [nil_append, length_append, houter]
      exact h.within_le _ _ (Nat.add_le_add_left (h.digest_length _) _) h.outer)
  refine ⟨last, ?_, hlastFed, fun stored hs =>
    hlastStored _ (hpadStored _ (hfirstStored _ hs))⟩
  unfold CHMacImpl.outerHash hmac
  rw [hfirst]
  simp only [ok_bind]
  rw [hpad]
  simp only [ok_bind]
  rw [hlast, ← ho.inner, ← ho.outer, nil_append, List.append_assoc]
  rfl

/-- **`Hash`.**  It goes on with what is kept of the message. -/
theorem Keyed.hash (hwithin : within (plugin.blockSize + (d.msg ++ aMessage).length)) :
    ∃ next, o.hash aMessage =
        .ok (next, hmac H plugin.blockSize d.key (d.msg ++ aMessage)) ∧
      Keyed H Fed { d with msg := keep d.msg ++ aMessage } next := by
  have hinner : o.iInnerPad.length = plugin.blockSize := by
    rw [ho.inner, length_xorMagic, length_hmacKey h]
  obtain ⟨hfed, hstored⟩ := h.store _ _ ho.fed
  have hstoredKeyed : Keyed H Fed d o.storeState := ⟨ho.inner, ho.outer, hfed⟩
  obtain ⟨last, hlast, hlastFed, hlastStored⟩ := hstoredKeyed.outerHash h hwithin
  have hrestored := h.restore _ _ hlastFed (hlastStored _ hstored)
  rw [h.keep_block _ _ hinner] at hrestored
  have hkeyed : Keyed H Fed { d with msg := keep d.msg }
      (restoreState { o.storeState with iDigest := last }) := ⟨ho.inner, ho.outer, hrestored⟩
  have hshorter : (keep d.msg ++ aMessage).length ≤ (d.msg ++ aMessage).length := by
    have := h.keep_length d.msg
    rw [length_append, length_append]
    omega
  obtain ⟨next, hupdate, hnext⟩ := hkeyed.update h
    (h.within_le _ _ (Nat.add_le_add_left hshorter _) hwithin)
  refine ⟨next, ?_, hnext⟩
  unfold CHMacImpl.hash
  rw [hlast]
  simp only [ok_bind]
  rw [hupdate]
  rfl

/-- **`Final`.** -/
theorem Keyed.final (hwithin : within (plugin.blockSize + (d.msg ++ aMessage).length)) :
    ∃ next, o.final aMessage =
        .ok (next, hmac H plugin.blockSize d.key (d.msg ++ aMessage)) ∧
      Keyed H Fed { d with msg := [] } next := by
  obtain ⟨last, hlast, -, -⟩ := ho.outerHash h hwithin
  obtain ⟨next, hreset, hnext⟩ := ho.reset h last
  refine ⟨next, ?_, hnext⟩
  unfold CHMacImpl.final
  rw [hlast]
  simp only [ok_bind]
  rw [hreset]
  rfl

/-- **A call.** -/
theorem Keyed.callL (call : HmacCall) (htakes : call.Takes within plugin.blockSize d) :
    ∃ next, o.callL call = .ok (next,
        (call.coded d).map fun d => hmac H plugin.blockSize d.key d.msg) ∧
      Keyed H Fed (call.leaves keep d) next := by
  cases call with
  | update aMessage =>
      obtain ⟨next, hupdate, hnext⟩ := ho.update h htakes
      refine ⟨next, ?_, hnext⟩
      simp only [CHMacImpl.callL, hupdate]
      rfl
  | hash aMessage =>
      obtain ⟨next, hhash, hnext⟩ := ho.hash h htakes
      refine ⟨next, ?_, hnext⟩
      simp only [CHMacImpl.callL, hhash]
      rfl
  | final aMessage =>
      obtain ⟨next, hfinal, hnext⟩ := ho.final h htakes
      refine ⟨next, ?_, hnext⟩
      simp only [CHMacImpl.callL, hfinal]
      rfl
  | reset =>
      obtain ⟨next, hreset, hnext⟩ := ho.reset h o.iDigest
      refine ⟨next, ?_, hnext⟩
      simp only [CHMacImpl.callL, hreset]
      rfl
  | setKeyL aKey =>
      obtain ⟨next, hinitialise, hnext⟩ := keyed_initialise h o htakes
      refine ⟨next, ?_, hnext⟩
      simp only [CHMacImpl.callL, hinitialise]
      rfl

/-- **A run.**  The codes are those of what is kept. -/
theorem Keyed.callsL
    (htakes : HmacCall.Along (fun d call => call.Takes within plugin.blockSize d) keep d calls) :
    ∃ next, o.callsL calls = .ok (next,
      (HmacCall.codes keep d calls).map fun d => hmac H plugin.blockSize d.key d.msg) := by
  induction calls generalizing o d with
  | nil => exact ⟨o, rfl⟩
  | cons call calls ih =>
      obtain ⟨next, hcall, hnext⟩ := ho.callL h call htakes.1
      obtain ⟨last, hcalls⟩ := ih hnext htakes.2
      refine ⟨last, ?_⟩
      unfold CHMacImpl.callsL HmacCall.codes
      rw [hcall]
      simp only [ok_bind]
      rw [hcalls, map_append]
      rfl

end

end

end CHMacImpl

end OsSecurity
