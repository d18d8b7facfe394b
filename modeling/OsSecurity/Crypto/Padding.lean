/-
Padding for block ciphers: `padding/padding.cpp` and `padding/pkcs7.cpp`.

`CPadding` is asked for the last block only: `PadL` gets what is left of the plaintext and
appends a whole block to its output, or with `CPaddingNone` what it got.  `UnPadL` gets
decrypted text that ends in the padding, of one block or of several.  The three schemes
differ in the octet they fill up with and in what they check when they take it away.
-/
import OsSecurity.E32

namespace OsSecurity

open List

def KErrInvalidPadding : Int := -11003

/-! ### Output descriptors -/

/-- A modifiable descriptor: what it holds, and what it can hold. -/
structure TDes8 where
  data : Bytes
  maxLength : Nat
  deriving DecidableEq

namespace TDes8

def length (d : TDes8) : Nat := d.data.length

/-- `Append`, which panics when there is no room. -/
def append (d : TDes8) (aDes : Bytes) : Leaving TDes8 :=
  if d.maxLength < d.length + aDes.length then panic else .ok { d with data := d.data ++ aDes }

theorem append_ok {d : TDes8} {aDes : Bytes} (h : d.length + aDes.length ≤ d.maxLength) :
    d.append aDes = .ok ⟨d.data ++ aDes, d.maxLength⟩ :=
  if_neg (by omega)

theorem append_eq_ok {d d' : TDes8} {aDes : Bytes} (h : d.append aDes = .ok d') :
    d.length + aDes.length ≤ d.maxLength ∧ d' = ⟨d.data ++ aDes, d.maxLength⟩ := by
  unfold append at h
  by_cases hfull : d.maxLength < d.length + aDes.length
  · rw [if_pos hfull] at h
    cases h
  · rw [if_neg hfull] at h
    exact ⟨by omega, (Except.ok.inj h).symm⟩

/-- What `HBufC8::NewL(aLength)->Des()` can hold: cells of the heap come in words. -/
def heapCapacity (aLength : Nat) : Nat := (aLength + 3) / 4 * 4

end TDes8

/-! ### The schemes -/

inductive CPadding where
  | none
  | SSLv3
  | PKCS7
  deriving DecidableEq

namespace CPadding

def minPaddingLength : CPadding → Nat
  | none => 0
  | SSLv3 => 1
  | PKCS7 => 1

def maxPaddedLength (iBlockBytes : Nat) : CPadding → Nat → Nat
  | none, aInputBytes => aInputBytes
  | _, aInputBytes => iBlockBytes - aInputBytes % iBlockBytes + aInputBytes

def maxUnPaddedLength (self : CPadding) (aInputBytes : Nat) : Int :=
  (aInputBytes : Int) - self.minPaddingLength

/-- The octet that `paddingBytes` octets of padding are filled with. -/
def fill : CPadding → Nat → UInt8
  | SSLv3, paddingBytes => (paddingBytes - 1).toUInt8
  | _, paddingBytes => paddingBytes.toUInt8

/-- What is put behind `aInput`. -/
def padding (iBlockBytes : Nat) (self : CPadding) (aInput : Bytes) : Bytes :=
  match self with
  | none => []
  | _ =>
    let paddingBytes := iBlockBytes - aInput.length % iBlockBytes
    replicate paddingBytes (self.fill paddingBytes)

def doPadL (iBlockBytes : Nat) (self : CPadding) (aInput : Bytes) (aOutput : TDes8) :
    Leaving TDes8 := do
  (← aOutput.append aInput).append (self.padding iBlockBytes aInput)

def padL (iBlockBytes : Nat) (self : CPadding) (aInput : Bytes) (aOutput : TDes8) :
    Leaving TDes8 :=
  if (aInput.length : Int) > iBlockBytes - self.minPaddingLength ∧ aInput.length ≠ iBlockBytes then
    leave KErrArgument
  else if aOutput.maxLength < self.maxPaddedLength iBlockBytes aInput.length then leave KErrOverflow
  else self.doPadL iBlockBytes aInput aOutput

/-- The number of octets at the end of `aInput` that its last octet says are padding. -/
def paddingLen (self : CPadding) (last : UInt8) : Nat :=
  match self with
  | none => 0
  | SSLv3 => last.toNat + 1
  | PKCS7 => last.toNat

/-- `UnPadL` of the schemes that count.  The output of a PKCS7 padding that is wrong has been
written when it is found out. -/
def unPadCountedL (self : CPadding) (aInput : Bytes) (aOutput : TDes8) : Leaving TDes8 := do
  let last ← TDes.at' aInput (aInput.length - 1)
  let paddingLen := self.paddingLen last
  if paddingLen > aInput.length then
    leave KErrInvalidPadding
  let outlen := aInput.length - paddingLen
  let aOutput ← aOutput.append (aInput.take outlen)
  if self = PKCS7 ∧ ∃ b ∈ aInput.drop outlen, b.toNat ≠ paddingLen then
    leave KErrInvalidPadding
  return aOutput

def unPadL (self : CPadding) (aInput : Bytes) (aOutput : TDes8) : Leaving TDes8 :=
  match self with
  | none => aOutput.append aInput
  | _ => self.unPadCountedL aInput aOutput

/-- Octets with their padding. -/
def padded (iBlockBytes : Nat) (self : CPadding) (aInput : Bytes) : Bytes :=
  aInput ++ self.padding iBlockBytes aInput

/-! ### Padding taken away again -/

variable {iBlockBytes : Nat} {self : CPadding} {aInput : Bytes}

theorem padding_eq (hself : self ≠ none) : self.padding iBlockBytes aInput =
    replicate (iBlockBytes - aInput.length % iBlockBytes)
      (self.fill (iBlockBytes - aInput.length % iBlockBytes)) := by
  cases self with
  | none => exact absurd rfl hself
  | SSLv3 => rfl
  | PKCS7 => rfl

theorem padding_length (hself : self ≠ none) :
    (self.padding iBlockBytes aInput).length = iBlockBytes - aInput.length % iBlockBytes := by
  rw [padding_eq hself, length_replicate]

/-- Only the length counts, and of it only what is over whole blocks. -/
theorem padding_congr {aInput' : Bytes}
    (h : aInput.length % iBlockBytes = aInput'.length % iBlockBytes) :
    self.padding iBlockBytes aInput = self.padding iBlockBytes aInput' := by
  by_cases hself : self = none
  · subst hself
    rfl
  · rw [padding_eq hself, padding_eq hself, h]

theorem padding_length_le (iBlockBytes : Nat) (self : CPadding) (aInput : Bytes) :
    (self.padding iBlockBytes aInput).length ≤ iBlockBytes := by
  by_cases hself : self = none
  · subst hself
    exact Nat.zero_le _
  · rw [padding_length hself]
    exact Nat.sub_le _ _

theorem minPaddingLength_le (hsize : 0 < iBlockBytes) (self : CPadding) (aInput : Bytes) :
    self.minPaddingLength ≤ (self.padding iBlockBytes aInput).length := by
  by_cases hself : self = none
  · subst hself
    exact Nat.zero_le _
  · have hmod := Nat.mod_lt aInput.length hsize
    have hmin : self.minPaddingLength ≤ 1 := by
      cases self <;> decide
    rw [padding_length hself]
    omega

/-- Whole blocks taken off the front leave the padding what it is. -/
theorem padded_drop {k : Nat} (hk : iBlockBytes ∣ k) (hle : k ≤ aInput.length) :
    (self.padded iBlockBytes aInput).drop k = self.padded iBlockBytes (aInput.drop k) := by
  obtain ⟨q, rfl⟩ := hk
  have hsame : self.padding iBlockBytes (aInput.drop (iBlockBytes * q)) =
      self.padding iBlockBytes aInput := by
    apply padding_congr
    rw [length_drop, Nat.sub_mul_mod hle]
  unfold padded
  rw [drop_append_of_le_length hle, hsame]

/-- `MaxPaddedLength` is the length, not only a bound of it. -/
theorem padded_length (iBlockBytes : Nat) (self : CPadding) (aInput : Bytes) :
    (self.padded iBlockBytes aInput).length = self.maxPaddedLength iBlockBytes aInput.length := by
  unfold padded
  rw [length_append]
  by_cases hself : self = none
  · subst hself
    rfl
  · rw [padding_length hself, Nat.add_comm]
    cases self with
    | none => exact absurd rfl hself
    | SSLv3 => rfl
    | PKCS7 => rfl

theorem unPadL_counted (hself : self ≠ none) (aInput : Bytes) (aOutput : TDes8) :
    self.unPadL aInput aOutput = self.unPadCountedL aInput aOutput := by
  cases self with
  | none => exact absurd rfl hself
  | SSLv3 => rfl
  | PKCS7 => rfl

/-- Padded octets are whole blocks, and without a scheme they are if they were before. -/
theorem dvd_padded (hsize : 0 < iBlockBytes) (h : self = none → iBlockBytes ∣ aInput.length) :
    iBlockBytes ∣ (self.padded iBlockBytes aInput).length := by
  unfold padded
  rw [length_append]
  by_cases hself : self = none
  · subst hself
    exact h rfl
  · rw [padding_length hself]
    have hmod := Nat.mod_lt aInput.length hsize
    have hdiv := Nat.div_add_mod aInput.length iBlockBytes
    refine ⟨aInput.length / iBlockBytes + 1, ?_⟩
    rw [Nat.mul_add]
    omega

/-- That many octets of padding can be counted by one of them. -/
def Counts : CPadding → Nat → Prop
  | none, _ => True
  | SSLv3, paddingBytes => paddingBytes ≤ 256
  | PKCS7, paddingBytes => paddingBytes ≤ 255

theorem counts_of_lt {n : Nat} (hn : n < 256) : self.Counts n := by
  cases self with
  | none => trivial
  | SSLv3 =>
      show n ≤ 256
      omega
  | PKCS7 =>
      show n ≤ 255
      omega

/-- The last octet of a padding says how long it is. -/
theorem paddingLen_fill (hself : self ≠ none) {n : Nat} (hpos : 0 < n) (hn : self.Counts n) :
    self.paddingLen (self.fill n) = n := by
  cases self with
  | none => exact absurd rfl hself
  | SSLv3 =>
      have hle : n ≤ 256 := hn
      show ((n - 1).toUInt8).toNat + 1 = n
      simp
      omega
  | PKCS7 =>
      have hle : n ≤ 255 := hn
      show (n.toUInt8).toNat = n
      simp
      omega

/-- **`UnPadL` takes away what `PadL` has put there.** -/
theorem unPadL_counts (hsize : 0 < iBlockBytes)
    (hcounts : self.Counts (iBlockBytes - aInput.length % iBlockBytes)) (aOutput : TDes8) :
    self.unPadL (self.padded iBlockBytes aInput) aOutput = aOutput.append aInput := by
  by_cases hself : self = none
  · subst hself
    show aOutput.append (aInput ++ []) = aOutput.append aInput
    rw [append_nil]
  · have hmod := Nat.mod_lt aInput.length hsize
    unfold padded
    rw [padding_eq hself, unPadL_counted hself]
    generalize hn : iBlockBytes - aInput.length % iBlockBytes = n at *
    have hpos : 0 < n := by omega
    have hfill := paddingLen_fill hself hpos hcounts
    have htotal : (aInput ++ replicate n (self.fill n)).length = aInput.length + n := by
      rw [length_append, length_replicate]
    have hlast : TDes.at' (aInput ++ replicate n (self.fill n))
        ((aInput ++ replicate n (self.fill n)).length - 1) = .ok (self.fill n) := by
      have hindex : (((aInput ++ replicate n (self.fill n)).length : Int) - 1).toNat
          = aInput.length + (n - 1) := by omega
      unfold TDes.at'
      rw [if_neg (by omega), hindex, getElem?_append_right (by omega),
        Nat.add_sub_cancel_left, getElem?_replicate_of_lt (by omega)]
    have hfilled : ¬ (self = PKCS7 ∧ ∃ b ∈ replicate n (self.fill n), b.toNat ≠ n) := by
      rintro ⟨rfl, b, hb, hne⟩
      rw [(mem_replicate.mp hb).2] at hne
      exact hne hfill
    unfold unPadCountedL
    rw [hlast]
    simp only [ok_bind, hfill]
    rw [if_neg (by omega), htotal, Nat.add_sub_cancel, take_left, drop_left]
    cases aOutput.append aInput with
    | error e => rfl
    | ok out =>
      simp only [ok_bind]
      rw [if_neg hfilled]
      rfl

theorem unPadL_padded (hsize : 0 < iBlockBytes) (hmax : iBlockBytes < 256) (aOutput : TDes8) :
    self.unPadL (self.padded iBlockBytes aInput) aOutput = aOutput.append aInput :=
  unPadL_counts hsize (counts_of_lt (by omega)) aOutput

end CPadding

end OsSecurity
