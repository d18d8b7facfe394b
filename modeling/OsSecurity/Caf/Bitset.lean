/-
The bit set of the content access framework: `bitset.cpp`.

A set keeps the width of its array apart from the number of its bits.  An assignment takes the
number of bits from its source, but never a narrower array; a set is written with all of its
array, and read back with the array that its number of bits needs.  The two agree as long as
nothing was assigned from a narrower set.

The array always reaches the last bit, so no function here gets outside it.  An allocation that
fails leaves the sets as they are, and is no step of a run.
-/
import OsSecurity.Streams
import OsSecurity.Library.Transitions
import Mathlib.Data.Nat.Bitwise

namespace OsSecurity

open List Nat Option Transitions

namespace Caf

open RWriteStream RReadStream

/-- The width that `ConstructL` calculates. -/
def widthOf (aMaxBits : Int32) : Int := 1 + aMaxBits.toInt.tdiv 8

structure CBitset where
  iMaxBits : Int32
  iBitSet : Bytes
  reaches : widthOf iMaxBits ≤ iBitSet.length

namespace CBitset

def iWidth (self : CBitset) : Nat := self.iBitSet.length

/-- `ConstructL(TInt)`: there is no array of a negative width. -/
def constructL (aMaxBits : Int32) : Leaving CBitset :=
  if widthOf aMaxBits < 0 then leave KErrNoMemory
  else .ok {
    iMaxBits := aMaxBits
    iBitSet := replicate (widthOf aMaxBits).toNat 0
    reaches := by
      rw [length_replicate]
      omega }

/-- A change of every octet. -/
def mapOctets (f : UInt8 → UInt8) (self : CBitset) : CBitset :=
  { self with
    iBitSet := self.iBitSet.map f
    reaches := by
      rw [length_map]
      exact self.reaches }

def invert : CBitset → CBitset := mapOctets (~~~ ·)

def validBit (self : CBitset) (aBit : Int) : Bool := 0 ≤ aBit ∧ aBit < self.iMaxBits.toInt

def mask (aBit : Nat) : UInt8 := 1 <<< UInt8.ofNat (aBit % 8)

/-- A change of the octet that a bit is in. -/
def changeL (f : UInt8 → UInt8) (self : CBitset) (aBit : Int) : Leaving CBitset :=
  if self.validBit aBit then
    .ok { self with
      iBitSet := self.iBitSet.modify (aBit.toNat / 8) f
      reaches := by
        rw [length_modify]
        exact self.reaches }
  else panic

def set (self : CBitset) (aBit : Int) : Leaving CBitset :=
  self.changeL (· ||| mask aBit.toNat) aBit

def unset (self : CBitset) (aBit : Int) : Leaving CBitset :=
  self.changeL (· &&& ~~~mask aBit.toNat) aBit

/-- What `IsSet` looks at. -/
def bitAt (octets : Bytes) (aBit : Nat) : Bool := octets.getD (aBit / 8) 0 &&& mask aBit ≠ 0

def isSet (self : CBitset) (aBit : Int) : Leaving Bool :=
  if self.validBit aBit then .ok (bitAt self.iBitSet aBit.toNat) else panic

/-- The array with octets copied to its front. -/
def copyOver (octets anArray : Bytes) : Bytes := octets ++ anArray.drop octets.length

theorem length_copyOver (octets anArray : Bytes) :
    (copyOver octets anArray).length = max octets.length anArray.length := by
  unfold copyOver
  rw [length_append, length_drop]
  omega

/-- `operator=` -/
def assign (self aSource : CBitset) : CBitset where
  iMaxBits := aSource.iMaxBits
  iBitSet :=
    copyOver aSource.iBitSet
      (if aSource.iWidth ≠ self.iWidth then replicate (max self.iWidth aSource.iWidth) 0
      else self.iBitSet)
  reaches := by
    rw [length_copyOver]
    exact aSource.reaches.trans (Int.ofNat_le.mpr (Nat.le_max_left _ _))

def setListL (self : CBitset) (aItems : List Int) : Leaving CBitset := do
  let tempSet ← constructL self.iMaxBits
  let tempSet ← aItems.foldlM set (tempSet.assign self)
  return self.assign tempSet

/-- The loop of `operator==` over the bits behind the last whole octet. -/
def sameBits (self aSource : CBitset) : Nat → Int → Leaving Bool
  | 0, _ => return true
  | n + 1, i => do
    if (!(← self.isSet i)) ≠ !(← aSource.isSet i) then return false
    else sameBits self aSource n (i + 1)

/-- `operator==`, of a set and itself or another one.  Octets before an array have no defined
value. -/
def equals (isSelf : Bool) (self aSource : CBitset) : Leaving Bool :=
  let narrowest := min self.iMaxBits.toInt aSource.iMaxBits.toInt
  let whole := narrowest.tdiv 8
  if isSelf then .ok true
  else if whole < 0 then .error .undefined
  else if self.iBitSet.take whole.toNat ≠ aSource.iBitSet.take whole.toNat then .ok false
  else sameBits self aSource (narrowest - whole * 8).toNat (whole * 8)

def externalizeL (self : CBitset) : Bytes := writeUint32L self.iMaxBits.toUInt32 ++ self.iBitSet

def internalizeL : RReadStream CBitset := do
  let iMaxBits ← readUint32L
  let set ← liftM (constructL iMaxBits.toInt32)
  let octets ← readL set.iWidth
  return { set with
    iBitSet := copyOver octets set.iBitSet
    reaches := by
      rw [length_copyOver]
      exact set.reaches.trans (Int.ofNat_le.mpr (Nat.le_max_right _ _)) }

section

variable {a b self : CBitset}

/-! ### Bits -/

theorem toNat_mask (n : Nat) : (mask n).toNat = 2 ^ (n % 8) := by
  have hlt : n % 8 < 8 := mod_lt n (by decide)
  have hpow : 2 ^ (n % 8) < 256 := Nat.pow_lt_pow_right (by decide) hlt
  unfold mask
  rw [UInt8.toNat_shiftLeft, UInt8.toNat_ofNat_of_lt' (Nat.lt_trans hlt (by decide)), mod_mod, UInt8.toNat_one,
    one_shiftLeft, mod_eq_of_lt hpow]

theorem bitAt_eq (octets : Bytes) (n : Nat) :
    bitAt octets n = (octets.getD (n / 8) 0).toNat.testBit (n % 8) := by
  unfold bitAt
  rw [Bool.eq_iff_iff, decide_eq_true_iff, ne_eq, ← UInt8.toNat_inj, UInt8.toNat_and, toNat_mask,
    and_two_pow]
  cases (octets.getD (n / 8) 0).toNat.testBit (n % 8) <;> simp

/-- Octets with the same bits are the same. -/
theorem octets_eq {x y : Bytes} (hlen : x.length = y.length)
    (h : ∀ n < x.length * 8, bitAt x n = bitAt y n) : x = y := by
  apply ext_getElem hlen
  intro i hx hy
  apply UInt8.toNat_inj.mp
  apply eq_of_testBit_eq
  intro k
  by_cases hk : k < 8
  · have hbit := h (i * 8 + k) (by omega)
    have hdiv : (i * 8 + k) / 8 = i := by omega
    have hmod : (i * 8 + k) % 8 = k := by omega
    rwa [bitAt_eq, bitAt_eq, hdiv, hmod, getD_eq_getElem _ _ hx, getD_eq_getElem _ _ hy] at hbit
  · have hmore : 2 ^ 8 ≤ 2 ^ k := Nat.pow_le_pow_right (by decide) (by omega)
    rw [testBit_lt_two_pow ((x[i].toNat_lt).trans_le hmore),
      testBit_lt_two_pow ((y[i].toNat_lt).trans_le hmore)]

theorem bitAt_take {octets : Bytes} {n w : Nat} (h : n < w * 8) :
    bitAt (octets.take w) n = bitAt octets n := by
  unfold bitAt
  rw [getD_eq_getElem?_getD, getElem?_take_of_lt (by omega), ← getD_eq_getElem?_getD]

theorem take_eq_iff {x y : Bytes} {w : Nat} (hx : w ≤ x.length) (hy : w ≤ y.length) :
    x.take w = y.take w ↔ ∀ n < w * 8, bitAt x n = bitAt y n := by
  constructor
  · intro h n hn
    rw [← bitAt_take hn, h, bitAt_take hn]
  · intro h
    apply octets_eq
    · rw [length_take_of_le hx, length_take_of_le hy]
    · intro n hn
      rw [length_take_of_le hx] at hn
      rw [bitAt_take hn, bitAt_take hn]
      exact h n hn

/-! ### Comparison -/

/-- `IsSet` says the same of every bit there is. -/
def Agree (a b : CBitset) : Prop :=
  ∀ aBit : Int, 0 ≤ aBit → aBit < a.iMaxBits.toInt → a.isSet aBit = b.isSet aBit

theorem isSet_eq {n : Nat} (h : n < self.iMaxBits.toInt) :
    self.isSet n = .ok (bitAt self.iBitSet n) := by
  unfold isSet validBit
  rw [if_pos (by simpa using h)]
  rfl

theorem agree_iff (h : a.iMaxBits = b.iMaxBits) :
    Agree a b ↔ ∀ n : Nat, n < a.iMaxBits.toInt → bitAt a.iBitSet n = bitAt b.iBitSet n := by
  constructor
  · intro hagree n hn
    have hboth := hagree n (Int.natCast_nonneg n) hn
    rwa [isSet_eq hn, isSet_eq (h ▸ hn), Except.ok.injEq] at hboth
  · intro hbits aBit hlow hhigh
    obtain ⟨n, rfl⟩ := Int.eq_ofNat_of_zero_le hlow
    rw [isSet_eq hhigh, isSet_eq (h ▸ hhigh), hbits n hhigh]

theorem sameBits_eq (h : a.iMaxBits = b.iMaxBits) (count start : Nat)
    (hend : ∀ n < count, (start + n : Int) < a.iMaxBits.toInt) :
    ∃ r, sameBits a b count start = .ok r ∧
      (r = true ↔ ∀ n < count, bitAt a.iBitSet (start + n) = bitAt b.iBitSet (start + n)) := by
  induction count generalizing start with
  | zero => exact ⟨true, rfl, iff_of_true rfl (by simp)⟩
  | succ count ih =>
      have hstart : (start : Int) < a.iMaxBits.toInt := by
        have hfirst := hend 0 (by omega)
        omega
      obtain ⟨r, hr, hiff⟩ := ih (start + 1) fun n hn => by
        have hnext := hend (n + 1) (by omega)
        omega
      unfold sameBits
      rw [isSet_eq hstart, ok_bind, isSet_eq (h ▸ hstart), ok_bind]
      by_cases hbit : bitAt a.iBitSet start = bitAt b.iBitSet start
      · rw [if_neg (by simp [hbit])]
        refine ⟨r, hr, hiff.trans ⟨fun hmore n hn => ?_, fun hall n hn => ?_⟩⟩
        · cases n with
          | zero => exact hbit
          | succ n =>
            have hnext := hmore n (by omega)
            rwa [Nat.add_right_comm] at hnext
        · have hnext := hall (n + 1) (by omega)
          rwa [Nat.add_right_comm]
      · rw [if_pos (by simpa using hbit)]
        refine ⟨false, rfl, iff_of_false (by simp) fun hall => hbit ?_⟩
        exact hall 0 (by omega)

theorem tdiv_eight {n : Int} (h : -8 < n) : n.tdiv 8 = (n.toNat / 8 : Nat) := by
  by_cases hn : 0 ≤ n
  · obtain ⟨m, rfl⟩ := Int.eq_ofNat_of_zero_le hn
    rfl
  · have hzero : (-n).tdiv 8 = 0 := Int.tdiv_eq_zero_of_lt (by omega) (by omega)
    rw [Int.neg_tdiv] at hzero
    omega

/-- **`operator==`**, of sets with the same number of bits. -/
theorem equals_iff (h : a.iMaxBits = b.iMaxBits) (hlow : -8 < a.iMaxBits.toInt) {isSelf : Bool}
    (hself : isSelf = true → a = b) : ∃ r, equals isSelf a b = .ok r ∧ (r = true ↔ Agree a b) := by
  cases isSelf with
  | true =>
      obtain rfl := hself rfl
      exact ⟨true, rfl, iff_of_true rfl fun _ _ _ => rfl⟩
  | false =>
      have ha := a.reaches
      have hb := b.reaches
      unfold equals
      rw [← h, agree_iff h, min_self]
      rw [← h] at hb
      unfold widthOf at ha hb
      rw [tdiv_eight hlow] at ha hb
      simp only [tdiv_eight hlow, Bool.false_eq_true, if_false, Int.toNat_natCast]
      rw [if_neg (by omega)]
      by_cases htake :
          a.iBitSet.take (a.iMaxBits.toInt.toNat / 8) = b.iBitSet.take (a.iMaxBits.toInt.toNat / 8)
      · have hwhole := (take_eq_iff (by omega) (by omega)).mp htake
        obtain ⟨r, hr, hiff⟩ := sameBits_eq h
          (a.iMaxBits.toInt - (a.iMaxBits.toInt.toNat / 8 : Nat) * 8).toNat
          (a.iMaxBits.toInt.toNat / 8 * 8) (by omega)
        rw [if_neg (not_not_intro htake)]
        refine ⟨r, hr, hiff.trans ⟨fun hlast n hn => ?_, fun hall n hn => hall _ (by omega)⟩⟩
        by_cases hbefore : n < a.iMaxBits.toInt.toNat / 8 * 8
        · exact hwhole n hbefore
        · have hbit := hlast (n - a.iMaxBits.toInt.toNat / 8 * 8) (by omega)
          rwa [add_sub_of_le (by omega)] at hbit
      · rw [if_pos htake]
        refine ⟨false, rfl, iff_of_false (by simp) fun hall => htake ?_⟩
        exact (take_eq_iff (by omega) (by omega)).mpr fun n hn => hall n (by omega)

/-! ### What is written is read back -/

/-- The array is just as wide as `ConstructL` would make it, which is not for a number of bits
that takes an octet in front of it. -/
structure Exact (x : CBitset) : Prop where
  width : (x.iWidth : Int) = widthOf x.iMaxBits
  bits : -8 < x.iMaxBits.toInt

theorem copyOver_all {octets anArray : Bytes} (h : anArray.length ≤ octets.length) :
    copyOver octets anArray = octets := by
  unfold copyOver
  rw [drop_eq_nil_of_le h, append_nil]

/-- `InternalizeL` reads what the number of bits needs, and leaves the rest of the array. -/
theorem internalizeL_eq (rest : Bytes) (h : 0 ≤ widthOf self.iMaxBits) :
    ∃ b, internalizeL (self.externalizeL ++ rest) =
        .ok (b, self.iBitSet.drop (widthOf self.iMaxBits).toNat ++ rest) ∧
      b.iMaxBits = self.iMaxBits ∧
      b.iBitSet = self.iBitSet.take (widthOf self.iMaxBits).toNat := by
  have hreach := self.reaches
  have hread := readUint32L_back self.iMaxBits.toUInt32 (self.iBitSet ++ rest)
  have hmade : constructL self.iMaxBits = .ok
      ⟨self.iMaxBits, replicate (widthOf self.iMaxBits).toNat 0, by rw [length_replicate]; omega⟩ :=
    if_neg (by omega)
  have hlen : (widthOf self.iMaxBits).toNat ≤ self.iBitSet.length := by omega
  have hoctets : (take (widthOf self.iMaxBits).toNat self.iBitSet).length =
      (widthOf self.iMaxBits).toNat := length_take_of_le hlen
  refine ⟨⟨self.iMaxBits, take (widthOf self.iMaxBits).toNat self.iBitSet, by rw [hoctets]; omega⟩,
    ?_, rfl, rfl⟩
  unfold externalizeL internalizeL
  rw [append_assoc, Reader.bind_run hread, Int32.toInt32_toUInt32,
    Reader.bind_run (show (liftM (constructL self.iMaxBits) : RReadStream CBitset) _ = _ by
      rw [hmade]; rfl)]
  have htake : readL (replicate (widthOf self.iMaxBits).toNat (0 : UInt8)).length
      (self.iBitSet ++ rest) = .ok (take (widthOf self.iMaxBits).toNat self.iBitSet,
        drop (widthOf self.iMaxBits).toNat self.iBitSet ++ rest) := by
    unfold readL
    rw [length_replicate, if_neg (by rw [length_append]; omega),
      take_append_of_le_length hlen, drop_append_of_le_length hlen]
  unfold iWidth
  rw [Reader.bind_run htake]
  show Except.ok (_, _) = _
  congr 2
  rw [CBitset.mk.injEq]
  exact ⟨rfl, copyOver_all (by rw [hoctets, length_replicate])⟩

/-- **What was written is read back, and no more**, when the width is the one of the number of
bits. -/
theorem readsBack (h : Exact self) : ReadsBack internalizeL self.externalizeL self := by
  intro rest
  have hwidth : (widthOf self.iMaxBits).toNat = self.iBitSet.length := by
    rw [← h.width]
    rfl
  obtain ⟨b, hread, hcount, hoctets⟩ := internalizeL_eq rest (h.width ▸ Int.natCast_nonneg _)
  rw [hwidth, take_length] at hoctets
  rw [hwidth, drop_length, nil_append] at hread
  rw [hread]
  congr 2
  cases b
  cases self
  cases hcount
  cases hoctets
  rfl

/-- Behind a set with a wider array something is left. -/
theorem not_readsBack (h : 0 ≤ widthOf self.iMaxBits) (hwide : widthOf self.iMaxBits < self.iWidth)
    (b : CBitset) : ¬ReadsBack internalizeL self.externalizeL b := by
  intro hback
  obtain ⟨c, hread, -⟩ := internalizeL_eq [] h
  have hrun := hback []
  rw [hread] at hrun
  have hnone := congrArg Prod.snd (Except.ok.inj hrun)
  have hlen := congrArg length hnone
  rw [append_nil, length_drop, length_nil] at hlen
  unfold iWidth at hwide
  omega

end

end CBitset

/-! ### Runs over several sets -/

inductive BitsetCall where
  | newL (aMaxBits : Int32)
  | newCopyL (aSource : Nat)
  | set (self : Nat) (aBit : Int)
  | unset (self : Nat) (aBit : Int)
  | invert (self : Nat)
  | setListL (self : Nat) (aItems : List Int)
  | assign (self aSource : Nat)

namespace CBitset

variable {a b : CBitset} {sets sets' : List CBitset} {call : BitsetCall}

/-- A call on one of the sets, which neither leaves nor panics. -/
def change (sets : List CBitset) (self : Nat) (f : CBitset → Leaving CBitset) :
    Option (List CBitset) :=
  sets[self]?.bind fun a => (f a).toOption.map (sets.set self ·)

def step (sets : List CBitset) : BitsetCall → Option (List CBitset)
  | .newL aMaxBits => (constructL aMaxBits).toOption.map (sets ++ [·])
  | .newCopyL aSource => sets[aSource]?.map (sets ++ [·])
  | .set self aBit => change sets self (set · aBit)
  | .unset self aBit => change sets self (unset · aBit)
  | .invert self => change sets self (.ok ·.invert)
  | .setListL self aItems => change sets self (setListL · aItems)
  | .assign self aSource => sets[aSource]?.bind fun b => change sets self (.ok <| assign · b)

/-- Nothing is assigned from a narrower set, and a new set has no number of bits that takes an
octet in front of the array. -/
def Fits (sets : List CBitset) : BitsetCall → Prop
  | .newL aMaxBits => -8 < aMaxBits.toInt
  | .assign self aSource =>
    ∀ a b, sets[self]? = some a → sets[aSource]? = some b → a.iWidth ≤ b.iWidth
  | _ => True

/-- As many bits, and as wide an array. -/
structure SameShape (a b : CBitset) : Prop where
  bits : b.iMaxBits = a.iMaxBits
  width : b.iWidth = a.iWidth

theorem SameShape.exact (h : SameShape a b) (ha : Exact a) : Exact b where
  width := by
    rw [h.width, h.bits]
    exact ha.width
  bits := by
    rw [h.bits]
    exact ha.bits

theorem SameShape.trans {c : CBitset} (h : SameShape a b) (hnext : SameShape b c) : SameShape a c :=
  ⟨hnext.bits.trans h.bits, hnext.width.trans h.width⟩

theorem changeL_sameShape {f : UInt8 → UInt8} {aBit : Int} (h : a.changeL f aBit = .ok b) :
    SameShape a b := by
  unfold changeL at h
  split_ifs at h
  · cases h
    exact ⟨rfl, length_modify ..⟩
  · exact absurd h (panic_ne_ok b)

theorem foldlM_sameShape {aItems : List Int} (h : aItems.foldlM set a = .ok b) : SameShape a b := by
  induction aItems generalizing a with
  | nil =>
      cases h
      exact ⟨rfl, rfl⟩
  | cons aBit aItems ih =>
      rw [foldlM_cons] at h
      obtain ⟨c, hset, hrest⟩ := bind_eq_ok.mp h
      exact (changeL_sameShape hset).trans (ih hrest)

theorem constructL_width {aMaxBits : Int32} (h : constructL aMaxBits = .ok a) :
    a.iMaxBits = aMaxBits ∧ (a.iWidth : Int) = widthOf aMaxBits := by
  unfold constructL at h
  split_ifs at h with hneg
  · exact absurd h (leave_ne_ok _ a)
  · cases h
    refine ⟨rfl, ?_⟩
    show ((replicate _ _).length : Int) = _
    rw [length_replicate]
    omega

theorem width_assign (a b : CBitset) : (a.assign b).iWidth = max a.iWidth b.iWidth := by
  show (copyOver _ _).length = _
  rw [length_copyOver]
  unfold iWidth
  split_ifs with hsame
  · rw [length_replicate]
    omega
  · omega

theorem setListL_sameShape {aItems : List Int} (h : a.setListL aItems = .ok b) : SameShape a b := by
  obtain ⟨empty, hempty, hnext⟩ := bind_eq_ok.mp h
  obtain ⟨tempSet, hset, hb⟩ := bind_eq_ok.mp hnext
  obtain rfl := Except.ok.inj hb
  have hshape := foldlM_sameShape hset
  have hwidth := (constructL_width hempty).2
  have hreach : widthOf a.iMaxBits ≤ a.iWidth := a.reaches
  refine ⟨hshape.bits, ?_⟩
  rw [width_assign, hshape.width, width_assign]
  omega

theorem ok_of_toOption {x : Leaving CBitset} (h : x.toOption = some b) : x = .ok b := by
  cases x with
  | ok c => exact congrArg _ (Option.some.inj h)
  | error e => cases h

theorem change_exact {i : Nat} {f : CBitset → Leaving CBitset} (h : change sets i f = some sets')
    (hf : ∀ a b, sets[i]? = some a → f a = .ok b → Exact a → Exact b)
    (hsets : ∀ a ∈ sets, Exact a) : ∀ a ∈ sets', Exact a := by
  obtain ⟨a, ha, hmade⟩ := bind_eq_some_iff.mp h
  obtain ⟨b, hb, rfl⟩ := map_eq_some_iff.mp hmade
  intro c hc
  rcases mem_or_eq_of_mem_set hc with hold | rfl
  · exact hsets c hold
  · exact hf a c ha (ok_of_toOption hb) (hsets a (mem_of_getElem? ha))

theorem append_exact (hsets : ∀ a ∈ sets, Exact a) (hb : Exact b) : ∀ a ∈ sets ++ [b], Exact a := by
  intro a ha
  rcases mem_append.mp ha with hold | hnew
  · exact hsets a hold
  · exact mem_singleton.mp hnew ▸ hb

theorem step_exact (hsets : ∀ a ∈ sets, Exact a) (hfits : Fits sets call)
    (h : step sets call = some sets') : ∀ a ∈ sets', Exact a := by
  cases call with
  | newL aMaxBits =>
      obtain ⟨a, ha, rfl⟩ := map_eq_some_iff.mp h
      obtain ⟨hbits, hwidth⟩ := constructL_width (ok_of_toOption ha)
      exact append_exact hsets ⟨hbits ▸ hwidth, hbits ▸ hfits⟩
  | newCopyL aSource =>
      obtain ⟨a, ha, rfl⟩ := map_eq_some_iff.mp h
      exact append_exact hsets (hsets a (mem_of_getElem? ha))
  | set self aBit =>
      exact change_exact h (fun _ _ _ hset => (changeL_sameShape hset).exact) hsets
  | unset self aBit =>
      exact change_exact h (fun _ _ _ hset => (changeL_sameShape hset).exact) hsets
  | invert self =>
      refine change_exact h (fun a b _ hinvert => ?_) hsets
      obtain rfl := Except.ok.inj hinvert
      exact SameShape.exact ⟨rfl, length_map _⟩
  | setListL self aItems =>
      exact change_exact h (fun _ _ _ hset => (setListL_sameShape hset).exact) hsets
  | assign self aSource =>
      obtain ⟨b, hb, hchange⟩ := bind_eq_some_iff.mp h
      refine change_exact hchange (fun a c ha hassign _ => ?_) hsets
      obtain rfl := Except.ok.inj hassign
      have hexact := hsets b (mem_of_getElem? hb)
      refine SameShape.exact (a := b) ⟨rfl, ?_⟩ hexact
      rw [width_assign]
      exact max_eq_right (hfits a b ha hb)

/-- **Sets survive a stream, and `operator==` compares their bits**, in a run that assigns nothing
from a narrower set. -/
theorem reads_and_compares (h : Reachable (· = []) step Fits sets) :
    (∀ a ∈ sets, ReadsBack internalizeL a.externalizeL a) ∧
      ∀ (i j : Nat) (a b : CBitset), sets[i]? = some a → sets[j]? = some b →
        a.iMaxBits = b.iMaxBits →
          ∃ r, equals (i == j) a b = .ok r ∧ (r = true ↔ Agree a b) := by
  have hexact : ∀ a ∈ sets, Exact a := by
    refine h.invariant (I := fun sets => ∀ a ∈ sets, Exact a) ?_ ?_
    · rintro sets rfl a ha
      exact absurd ha not_mem_nil
    · intro sets call sets' hsets hfits hstep
      exact step_exact hsets hfits hstep
  refine ⟨fun a ha => readsBack (hexact a ha), fun i j a b ha hb hbits => ?_⟩
  refine equals_iff hbits (hexact a (mem_of_getElem? ha)).bits fun hself => ?_
  obtain rfl := eq_of_beq hself
  exact Option.some.inj (ha.symm.trans hb)

/-- A set for nine bits, a copy of it, and the copy assigned back. -/
theorem reads_and_compares_copy : ∃ sets : List CBitset, sets.length = 2 ∧
    ∀ a ∈ sets, ReadsBack internalizeL a.externalizeL a := by
  have hmade : Reachable (· = []) step Fits [⟨9, [0, 0], by decide⟩] :=
    .next (a := BitsetCall.newL 9) (.start rfl) (show -8 < Int32.toInt 9 by decide) rfl
  have hcopied := hmade.next (a := BitsetCall.newCopyL 0) trivial rfl
  have hassigned := hcopied.next (a := BitsetCall.assign 0 1)
    (by
      intro a b ha hb
      cases ha
      cases hb
      exact Nat.le_refl _) rfl
  exact ⟨_, rfl, (reads_and_compares hassigned).1⟩

/-- A set for sixteen bits is assigned from one for eight. -/
theorem left_in_the_stream : ∃ sets : List CBitset, Reachable (· = []) step Anything sets ∧
    ∃ a ∈ sets, ∀ b, ¬ReadsBack internalizeL a.externalizeL b := by
  have hwide : Reachable (· = []) step Anything [⟨16, [0, 0, 0], by decide⟩] :=
    .next (a := BitsetCall.newL 16) (.start rfl) trivial rfl
  have hboth := hwide.next (a := BitsetCall.newL 8) trivial rfl
  have hassigned := hboth.next (a := BitsetCall.assign 0 1) trivial rfl
  refine ⟨_, hassigned, _, mem_cons_self, fun b => ?_⟩
  exact not_readsBack (by decide) (by decide) b

end CBitset

end Caf

end OsSecurity
