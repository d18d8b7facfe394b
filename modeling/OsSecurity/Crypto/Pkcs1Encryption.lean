/-
PKCS#1 v1.5 padding for encryption: `CPaddingPKCS1Encryption`.

A padded block is `00 02 PS 00 M` with no zero in `PS`.  The octets of `PS` come from a random
source that is asked for 256 octets at a time, and zeros among them are skipped, so how long
that takes depends on the source: the loop has fuel, and `nonZeroOctets_some` says that some
is enough for a source that never dries up.
-/
import OsSecurity.Crypto.Padding

namespace OsSecurity

variable {i fuel need : Nat}

/-- What `GenerateRandomBytesL` puts into a `TBuf8<256>`. -/
abbrev RandomBuffer := { b : Bytes // b.length = 256 }

/-- The answers of the random source, one after another.  `KErrNotSecure` is not an error to
the padding, so that answer is octets too. -/
abbrev RandomSource := Nat → Leaving RandomBuffer

namespace RandomSource

/-- Octet `i` of the row of all buffers. -/
def octet (draw : RandomSource) (i : Nat) : Leaving UInt8 := do
  let rnd ← draw (i / 256)
  return rnd.1.getD (i % 256) 0

/-- It always answers, and sooner or later with an octet that is not zero. -/
structure NeverDry (draw : RandomSource) : Prop where
  answers : ∀ n, ∃ rnd, draw n = .ok rnd
  nonZero : ∀ i, ∃ k, i ≤ k ∧ ∃ b, draw.octet k = .ok b ∧ b ≠ 0

end RandomSource

namespace CPaddingPKCS1Encryption

def MinPaddingLength : Nat := 11

/-- One turn reads `rnd[j]`, octet `j = i % 256` of the buffer drawn last, and draws the next
buffer as soon as that one is used up. -/
def turn (draw : RandomSource) (i : Nat) : Leaving UInt8 := do
  let b ← draw.octet i
  let _ ← draw ((i + 1) / 256)
  return b

/-- The loop that fills `PS`, from octet `i` of the source. -/
def nonZeroOctets (draw : RandomSource) : Nat → Nat → Nat → Option (Leaving Bytes)
  | _, 0, _ => some (.ok [])
  | 0, _ + 1, _ => none
  | fuel + 1, need + 1, i =>
    match turn draw i with
    | .ok b =>
      if b ≠ 0 then (nonZeroOctets draw fuel need (i + 1)).map (Except.map (b :: ·))
      else nonZeroOctets draw fuel (need + 1) (i + 1)
    | .error e => some (.error e)

/-- `DoPadL`.  The index of the separator is negative where the data fills the block. -/
def doPadL (aBlockBytes : Nat) (draw : RandomSource) (fuel : Nat) (aInput : Bytes) :
    Option (Leaving Bytes) :=
  match draw 0 with
  | .error e => some (.error e)
  | .ok _ =>
    let startOfData := aBlockBytes - aInput.length
    if aBlockBytes < 2 ∨ startOfData < 1 then some panic
    else
      (nonZeroOctets draw fuel (startOfData - 1 - 2) 0).map
        (Except.map fun ps => 0 :: 2 :: ps ++ 0 :: aInput)

/-- `CPadding::PadL`, for an output that has `aMaxLength` octets of room. -/
def padL (aBlockBytes : Nat) (draw : RandomSource) (fuel : Nat) (aInput : Bytes)
    (aMaxLength : Nat) : Option (Leaving Bytes) :=
  if (aInput.length : Int) > aBlockBytes - MinPaddingLength ∧ aInput.length ≠ aBlockBytes then
    some (leave KErrArgument)
  else if aMaxLength < aBlockBytes then some (leave KErrOverflow)
  else doPadL aBlockBytes draw fuel aInput

/-- The first index, from `dataStart` on, at which there is a zero or nothing. -/
def skipNonZero (aInput : Bytes) (dataStart : Nat) : Nat :=
  dataStart + ((aInput.drop dataStart).takeWhile (· ≠ 0)).length

def unPadL (aInput : Bytes) : Leaving Bytes :=
  if aInput.length = 0 then leave KErrInvalidPadding
  else
    -- a leading zero may have been stripped off by the integer class
    let dataStart := if aInput.getD 0 0 = 0 then 1 else 0
    if dataStart = aInput.length ∨ aInput.getD dataStart 0 ≠ 2 then leave KErrInvalidPadding
    else
      let separator := skipNonZero aInput (dataStart + 1)
      if separator = aInput.length ∨ aInput.getD separator 0 ≠ 0 then leave KErrInvalidPadding
      else .ok (aInput.drop (separator + 1))

/-! ### The random octets -/

section

variable {draw : RandomSource}

theorem nonZeroOctets_keep {b : UInt8} (hturn : turn draw i = .ok b) (hb : b ≠ 0)
    (fuel need : Nat) : nonZeroOctets draw (fuel + 1) (need + 1) i =
      (nonZeroOctets draw fuel need (i + 1)).map (Except.map (b :: ·)) := by
  simp only [nonZeroOctets, hturn]
  exact if_pos hb

theorem nonZeroOctets_skip {b : UInt8} (hturn : turn draw i = .ok b) (hb : ¬b ≠ 0)
    (fuel need : Nat) : nonZeroOctets draw (fuel + 1) (need + 1) i =
      nonZeroOctets draw fuel (need + 1) (i + 1) := by
  simp only [nonZeroOctets, hturn]
  exact if_neg hb

theorem nonZeroOctets_error {e : Exit} (hturn : turn draw i = .error e) (fuel need : Nat) :
    nonZeroOctets draw (fuel + 1) (need + 1) i = some (.error e) := by
  simp only [nonZeroOctets, hturn]

/-- What the loop leaves in the block. -/
theorem nonZeroOctets_spec {ps : Bytes} (h : nonZeroOctets draw fuel need i = some (.ok ps)) :
    ps.length = need ∧ ∀ b ∈ ps, b ≠ 0 := by
  induction fuel generalizing need i ps with
  | zero =>
      cases need with
      | zero =>
        cases h
        exact ⟨rfl, by simp⟩
      | succ need => cases h
  | succ fuel ih =>
      cases need with
      | zero =>
        cases h
        exact ⟨rfl, by simp⟩
      | succ need =>
        cases hturn : turn draw i with
        | error e =>
          rw [nonZeroOctets_error hturn] at h
          cases h
        | ok b =>
          by_cases hne : b ≠ 0
          · rw [nonZeroOctets_keep hturn hne] at h
            obtain ⟨rest, hrest, hps⟩ := Option.map_eq_some_iff.mp h
            cases rest with
            | error e => cases hps
            | ok rest =>
              obtain ⟨hlength, hall⟩ := ih hrest
              cases hps
              refine ⟨by rw [List.length_cons, hlength], ?_⟩
              intro x hx
              rcases List.mem_cons.mp hx with rfl | hx
              · exact hne
              · exact hall x hx
          · rw [nonZeroOctets_skip hturn hne] at h
            exact ih h

/-- More fuel changes nothing. -/
theorem nonZeroOctets_mono {r : Leaving Bytes} (h : nonZeroOctets draw fuel need i = some r) :
    nonZeroOctets draw (fuel + 1) need i = some r := by
  induction fuel generalizing need i r with
  | zero =>
      cases need with
      | zero => exact h
      | succ need => cases h
  | succ fuel ih =>
      cases need with
      | zero => exact h
      | succ need =>
        cases hturn : turn draw i with
        | error e =>
          rw [nonZeroOctets_error hturn] at h ⊢
          exact h
        | ok b =>
          by_cases hne : b ≠ 0
          · rw [nonZeroOctets_keep hturn hne] at h ⊢
            obtain ⟨rest, hrest, hr⟩ := Option.map_eq_some_iff.mp h
            rw [ih hrest, ← hr]
            rfl
          · rw [nonZeroOctets_skip hturn hne] at h ⊢
            exact ih h

theorem nonZeroOctets_le {more : Nat} {r : Leaving Bytes} (hle : fuel ≤ more)
    (h : nonZeroOctets draw fuel need i = some r) : nonZeroOctets draw more need i = some r := by
  induction more, hle using Nat.le_induction with
  | base => exact h
  | succ more _ ih => exact nonZeroOctets_mono ih

/-- Zeros on the way to the next octet that is not zero cost a turn each. -/
theorem nonZeroOctets_reach (hdraw : draw.NeverDry)
    (h : ∀ i, ∃ fuel ps, nonZeroOctets draw fuel need i = some (.ok ps)) {b : UInt8} (hb : b ≠ 0)
    (d i : Nat) (hoctet : draw.octet (i + d) = .ok b) :
    ∃ fuel ps, nonZeroOctets draw fuel (need + 1) i = some (.ok ps) := by
  have hturn : ∀ i, ∃ b, turn draw i = .ok b ∧ draw.octet i = .ok b := by
    intro i
    obtain ⟨rnd, hrnd⟩ := hdraw.answers (i / 256)
    obtain ⟨next, hnext⟩ := hdraw.answers ((i + 1) / 256)
    have hread : draw.octet i = .ok (rnd.1.getD (i % 256) 0) := by
      unfold RandomSource.octet
      rw [hrnd]
      rfl
    refine ⟨_, ?_, hread⟩
    unfold turn
    rw [hread, ok_bind, hnext]
    rfl
  induction d generalizing i with
  | zero =>
      obtain ⟨fuel, ps, hps⟩ := h (i + 1)
      obtain ⟨c, hc, hread⟩ := hturn i
      rw [Nat.add_zero, hread, Except.ok.injEq] at hoctet
      refine ⟨fuel + 1, b :: ps, ?_⟩
      rw [hoctet] at hc
      rw [nonZeroOctets_keep hc hb, hps]
      rfl
  | succ d ih =>
      obtain ⟨c, hc, -⟩ := hturn i
      by_cases hne : c ≠ 0
      · obtain ⟨fuel, ps, hps⟩ := h (i + 1)
        refine ⟨fuel + 1, c :: ps, ?_⟩
        rw [nonZeroOctets_keep hc hne, hps]
        rfl
      · obtain ⟨fuel, ps, hps⟩ := ih (i + 1) (by rw [Nat.add_right_comm]; exact hoctet)
        refine ⟨fuel + 1, ps, ?_⟩
        rw [nonZeroOctets_skip hc hne, hps]

theorem nonZeroOctets_some (hdraw : draw.NeverDry) (need i : Nat) :
    ∃ fuel ps, nonZeroOctets draw fuel need i = some (.ok ps) := by
  induction need generalizing i with
  | zero => exact ⟨0, [], rfl⟩
  | succ need ih =>
      obtain ⟨k, hle, b, hoctet, hb⟩ := hdraw.nonZero i
      exact nonZeroOctets_reach hdraw ih hb (k - i) i (by rw [Nat.add_sub_cancel' hle, hoctet])

end

/-! ### Padding and back -/

theorem skipNonZero_eq {front ps rest : Bytes} (hps : ∀ b ∈ ps, b ≠ 0) :
    skipNonZero (front ++ (ps ++ 0 :: rest)) front.length = (front ++ ps).length := by
  have htake : (ps ++ 0 :: rest).takeWhile (· ≠ 0) = ps := by
    rw [List.takeWhile_append_of_pos (by simpa using hps)]
    simp
  unfold skipNonZero
  rw [List.drop_left, htake, List.length_append]

/-- A block with or without the zero in front is a message again. -/
theorem unPadL_block {ps m : Bytes} (hps : ∀ b ∈ ps, b ≠ 0) :
    unPadL (2 :: ps ++ 0 :: m) = .ok m := by
  have hskip : skipNonZero (2 :: ps ++ 0 :: m) 1 = ps.length + 1 := by
    have hfront : skipNonZero ([2] ++ (ps ++ 0 :: m)) [(2 : UInt8)].length =
        ([2] ++ ps).length := skipNonZero_eq hps
    simpa using hfront
  have hlength : (2 :: ps ++ 0 :: m).length = ps.length + 1 + m.length + 1 := by
    simp
    omega
  have hzero : (2 :: ps ++ 0 :: m).getD (ps.length + 1) 0 = 0 := by
    simp
  have hdrop : (2 :: ps ++ 0 :: m).drop (ps.length + 2) = m := by
    simp
  have hfirst : (2 :: ps ++ 0 :: m).getD 0 0 = 2 := rfl
  have hseparator : ¬(ps.length + 1 = (2 :: ps ++ 0 :: m).length ∨
      (2 :: ps ++ 0 :: m).getD (ps.length + 1) 0 ≠ 0) := by
    rintro (hend | hne)
    · omega
    · exact hne hzero
  unfold unPadL
  rw [if_neg (by omega)]
  simp only [hfirst]
  rw [if_neg (show ¬(2 : UInt8) = 0 by decide), if_neg (by rw [hfirst]; simp), hskip,
    if_neg hseparator, hdrop]

/-- What a message that is short enough is padded to. -/
theorem padL_ok {aBlockBytes aMaxLength : Nat} {draw : RandomSource} {m block : Bytes}
    (hm : m.length + MinPaddingLength ≤ aBlockBytes)
    (h : padL aBlockBytes draw fuel m aMaxLength = some (.ok block)) :
    ∃ ps, block = 0 :: (2 :: ps ++ 0 :: m) ∧ ps.length + m.length + 3 = aBlockBytes ∧
      ∀ b ∈ ps, b ≠ 0 := by
  unfold MinPaddingLength at hm
  unfold padL at h
  rw [if_neg (by unfold MinPaddingLength; omega)] at h
  split at h
  · cases h
  · unfold doPadL at h
    split at h
    · cases h
    · rw [if_neg (by omega)] at h
      obtain ⟨r, hr, hblock⟩ := Option.map_eq_some_iff.mp h
      cases r with
      | error e => cases hblock
      | ok ps =>
        obtain ⟨hlength, hall⟩ := nonZeroOctets_spec hr
        cases hblock
        exact ⟨ps, rfl, by omega, hall⟩

theorem padL_some {aBlockBytes aMaxLength : Nat} {draw : RandomSource} {m : Bytes}
    (hm : m.length + MinPaddingLength ≤ aBlockBytes) (hmax : aBlockBytes ≤ aMaxLength)
    (hdraw : draw.NeverDry) : ∃ enough, ∀ fuel, enough ≤ fuel →
      ∃ block, padL aBlockBytes draw fuel m aMaxLength = some (.ok block) := by
  unfold MinPaddingLength at hm
  obtain ⟨enough, ps, hps⟩ := nonZeroOctets_some hdraw (aBlockBytes - m.length - 1 - 2) 0
  obtain ⟨rnd, hrnd⟩ := hdraw.answers 0
  refine ⟨enough, ?_⟩
  intro fuel hfuel
  unfold padL
  rw [if_neg (by unfold MinPaddingLength; omega), if_neg (by omega)]
  unfold doPadL
  simp only [hrnd]
  rw [if_neg (by omega), nonZeroOctets_le hfuel hps]
  exact ⟨_, rfl⟩

end CPaddingPKCS1Encryption

end OsSecurity
