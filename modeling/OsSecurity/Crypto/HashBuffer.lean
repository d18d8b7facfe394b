/-
What a hash is after the octets it has been given.

`Fed msg s` says it of the fields: the hash value is that of the whole blocks of `msg`, and the
words of `iData` hold the octets that are left, each in its place.  An octet keeps it, and so
does a word where a word may be put; with that it is kept by `Update`, by the copies, and by
`Hash`, which brings back what it has stored.
-/
import OsSecurity.Crypto.Hashes
import OsSecurity.Library.MerkleDamgard

namespace OsSecurity

open Blockwise Function List MerkleDamgard Nat Packing

variable {msg aData : Bytes}

/-- How the octets of a block are read: the number a word of them stands for. -/
abbrev Order := Bytes → Nat

def bigEndianOrder : Order := Der.value

def littleEndianOrder : Order := fun bs => Der.value bs.reverse

/-- The words of a block. -/
def wordsOf (order : Order) (n : Nat) (block : Bytes) : List Nat :=
  (range 16).map fun i => order (chunk n i block)

/-- `Block`, on octets. -/
def compressOctets (order : Order) (n : Nat) (compress : List Nat → List Nat → List Nat)
    (iWords : List Nat) (block : Bytes) : List Nat :=
  compress iWords (wordsOf order n block)

namespace HashImpl

/-- What the proofs need of an implementation: the octets of a word do not get into each
other's way, and `count` is how it counts octets, as long as there are fewer than `limit` bits
of them. -/
structure Lawful (impl : HashImpl) (order : Order) (count : Nat → impl.Length) (limit : Nat) :
    Prop where
  size : 0 < impl.wordSize
  number : ∀ bs : Bytes, bs.length = impl.wordSize → pack impl.shift 0 bs = order bs
  addPadding : ∀ bs : Bytes, bs.length < impl.wordSize →
    impl.addPadding (pack impl.shift 0 bs) (128 <<< impl.shift bs.length) =
      pack impl.shift 0 (bs ++ [128])
  filled : 14 ≤ impl.filled
  copied : 16 ≤ impl.copied
  octets : ∀ w, (impl.wordOctets w).length = impl.wordSize
  order_octets : ∀ w < 256 ^ impl.wordSize, order (impl.wordOctets w) = w
  count_zero : count 0 = impl.zero
  addLength : ∀ n k, 8 * (n + k) < limit → k ≤ impl.blockSize →
    impl.addLength (count n) k = .ok (count (n + k))
  lengthWords : ∀ n, (impl.lengthWords (count n)).1 < 256 ^ impl.wordSize ∧
    (impl.lengthWords (count n)).2 < 256 ^ impl.wordSize

/-- The hash has been given `msg`. -/
structure Fed (impl : HashImpl) (order : Order) (count : Nat → impl.Length)
    (compress : List Nat → List Nat → List Nat) (msg : Bytes) (s : HashFields impl) : Prop where
  words : s.iWords = MerkleDamgard.chain (compressOctets order impl.wordSize compress)
    impl.blockSize impl.initial msg
  length : s.iNl = (carry impl.blockSize msg).length
  data : ∀ i, i * impl.wordSize < s.iNl → s.iData i = pack impl.shift 0
    (chunk impl.wordSize i (carry impl.blockSize msg))
  counted : s.iLength = count (msg.length / impl.blockSize * impl.blockSize)

variable {impl : HashImpl} {order : Order} {count : Nat → impl.Length} {limit : Nat}
  {compress : List Nat → List Nat → List Nat} {s : HashFields impl}

theorem Lawful.blockSize_pos (h : impl.Lawful order count limit) : 0 < impl.blockSize := by
  have := h.size
  unfold blockSize
  omega

/-- Words that hold the octets of a block are the words of the block. -/
theorem map_iData (h : impl.Lawful order count limit) {iData : Nat → Nat} {block : Bytes}
    (hlen : block.length = impl.blockSize)
    (hdata : ∀ i < 16, iData i =
      pack impl.shift 0 (chunk impl.wordSize i block)) :
    (range 16).map iData = wordsOf order impl.wordSize block := by
  apply map_congr_left
  intro i hi
  have hi' : i < 16 := mem_range.mp hi
  have hroom : (i + 1) * impl.wordSize ≤ 16 * impl.wordSize :=
    Nat.mul_le_mul_right _ (by omega)
  rw [hdata i hi']
  apply h.number
  rw [chunk_length, hlen]
  unfold blockSize
  rw [succ_mul] at hroom
  omega

/-- Octets that fit into the open word make the words of the octets together. -/
theorem data_put (hsize : 0 < impl.wordSize) {iData : Nat → Nat} {c xs : Bytes} {word : Nat}
    (hdata : ∀ i, i * impl.wordSize < c.length →
      iData i = pack impl.shift 0 (chunk impl.wordSize i c))
    (hroom : c.length % impl.wordSize + xs.length ≤ impl.wordSize)
    (hword : word = pack impl.shift 0
      (chunk impl.wordSize (c.length / impl.wordSize) (c ++ xs))) :
    ∀ i, i * impl.wordSize < c.length + xs.length →
      Function.update iData (c.length / impl.wordSize) word i =
        pack impl.shift 0 (chunk impl.wordSize i (c ++ xs)) := by
  intro i hi
  have hsplit : c.length / impl.wordSize * impl.wordSize + c.length % impl.wordSize = c.length :=
    div_add_mod' _ _
  generalize c.length / impl.wordSize = k at hsplit hword
  by_cases hik : i = k
  · rw [hik, update_self, hword]
  · have hile : i < k + 1 := by
      apply Nat.lt_of_mul_lt_mul_right (a := impl.wordSize)
      rw [succ_mul]
      omega
    have hbefore : (i + 1) * impl.wordSize ≤ k * impl.wordSize :=
      Nat.mul_le_mul_right _ (by omega)
    have hi' : i * impl.wordSize < c.length := by
      rw [succ_mul] at hbefore
      omega
    rw [update_of_ne hik, hdata i hi', chunk_append_left (by omega)]

section

variable (h : impl.Lawful order count limit)
include h

section

variable (hs : impl.Fed order count compress msg s)
include hs

/-- **Octets in one word.**  They are put in, and the block is compressed if that fills it. -/
theorem Fed.put {xs : Bytes} (hroom : s.iNl % impl.wordSize + xs.length ≤ impl.wordSize)
    (hlimit : 8 * (msg ++ xs).length < limit) {word : Nat}
    (hword : word = pack impl.shift 0 (chunk impl.wordSize (s.iNl / impl.wordSize) (carry impl.blockSize msg ++ xs))) :
    ∃ next, impl.blockIfFull compress
        { s with
          iData := Function.update s.iData (s.iNl / impl.wordSize) word
          iNl := s.iNl + xs.length } = .ok next ∧
      impl.Fed order count compress (msg ++ xs) next := by
  have hB := h.blockSize_pos
  have hp := hs.length
  have hlt := carry_length_lt hB msg
  have hsplit : s.iNl / impl.wordSize * impl.wordSize + s.iNl % impl.wordSize = s.iNl :=
    div_add_mod' _ _
  have hdata := hs.data
  generalize hc : carry impl.blockSize msg = c at hp hlt hdata hword
  generalize hk : s.iNl / impl.wordSize = k at hsplit hword
  have hwhole : impl.blockSize = 16 * impl.wordSize := rfl
  have hk16 : k < 16 := by
    rw [← hk]
    exact Nat.div_lt_of_lt_mul (by rw [Nat.mul_comm, ← hwhole]; omega)
  have hlast : (k + 1) * impl.wordSize ≤ 16 * impl.wordSize := Nat.mul_le_mul_right _ (by omega)
  rw [succ_mul] at hlast
  have hfit : s.iNl + xs.length ≤ impl.blockSize := by omega
  have hnew : ∀ i, i * impl.wordSize < s.iNl + xs.length → Function.update s.iData k word i =
      pack impl.shift 0 (chunk impl.wordSize i (c ++ xs)) := by
    rw [hp] at hk hdata hroom ⊢
    rw [← hk] at hword ⊢
    exact data_put h.size hdata hroom hword
  have hcarry := carry_append hB msg xs
  have hchain : chain (compressOctets order impl.wordSize compress) impl.blockSize
      impl.initial (msg ++ xs) = _ := chain_append hB impl.initial msg xs
  have hdiv := length_append_div hB msg xs
  have hcount : (msg ++ xs).length / impl.blockSize * impl.blockSize =
      msg.length / impl.blockSize * impl.blockSize +
        (s.iNl + xs.length) / impl.blockSize * impl.blockSize := by
    rw [hdiv, hc, ← hp, Nat.add_mul]
  rw [hc, ← hp] at hcarry hchain
  have hmsg : msg.length = msg.length / impl.blockSize * impl.blockSize + s.iNl := by
    have hmod : (carry impl.blockSize msg).length = msg.length % impl.blockSize :=
      carry_length msg
    have := div_add_mod' msg.length impl.blockSize
    rw [hc, ← hp] at hmod
    omega
  rw [length_append] at hlimit
  unfold blockIfFull
  by_cases hfull : s.iNl + xs.length = impl.blockSize
  · -- the block is full
    have hone : (s.iNl + xs.length) / impl.blockSize = 1 := by
      rw [hfull, Nat.div_self hB]
    have hblock : (c ++ xs).length = impl.blockSize := by
      rw [length_append, ← hp, hfull]
    have hwords := map_iData h hblock fun i hi => hnew i (by
      rw [hfull, hwhole]
      exact Nat.mul_lt_mul_of_pos_right hi h.size)
    have hempty : carry impl.blockSize (msg ++ xs) = [] := by
      rw [hcarry, hone, Nat.one_mul, ← hblock, drop_length]
    have hadd := h.addLength (msg.length / impl.blockSize * impl.blockSize) impl.blockSize
      (by omega) (Nat.le_refl _)
    rw [hone, Nat.one_mul] at hcount
    rw [if_pos (show s.iNl + xs.length = impl.blockSize from hfull)]
    simp only
    rw [hs.counted, hadd]
    refine ⟨_, rfl, ?_, ?_, ?_, ?_⟩
    · show compress s.iWords ((range 16).map (Function.update s.iData k word)) = _
      rw [hwords, hchain, hone, hs.words, run_succ, ← hblock, take_length]
      rfl
    · rw [hempty]
      rfl
    · intro i hi
      exact absurd hi (Nat.not_lt_zero _)
    · rw [hcount]
  · have hzero : (s.iNl + xs.length) / impl.blockSize = 0 := div_eq_of_lt (by omega)
    have hcarried : carry impl.blockSize (msg ++ xs) = c ++ xs := by
      rw [hcarry, hzero, Nat.zero_mul, drop_zero]
    rw [hzero, Nat.zero_mul, Nat.add_zero] at hcount
    rw [if_neg (show ¬ s.iNl + xs.length = impl.blockSize from hfull)]
    refine ⟨_, rfl, ?_, ?_, ?_, ?_⟩
    · show s.iWords = _
      rw [hchain, hzero, hs.words]
      rfl
    · show s.iNl + xs.length = _
      rw [hcarried, length_append, hp]
    · intro i hi
      rw [hcarried]
      exact hnew i hi
    · show s.iLength = _
      rw [hcount]
      exact hs.counted

/-- The open word holds the octets that it has got. -/
theorem Fed.openWord :
    impl.openWord s = pack impl.shift 0 (chunk impl.wordSize
        (s.iNl / impl.wordSize) (carry impl.blockSize msg)) ∧
      (chunk impl.wordSize (s.iNl / impl.wordSize)
        (carry impl.blockSize msg)).length = s.iNl % impl.wordSize := by
  have hsplit : s.iNl / impl.wordSize * impl.wordSize + s.iNl % impl.wordSize = s.iNl :=
    div_add_mod' _ _
  have hmod := mod_lt s.iNl h.size
  have hlen : (chunk impl.wordSize (s.iNl / impl.wordSize)
      (carry impl.blockSize msg)).length = s.iNl % impl.wordSize := by
    rw [chunk_length, ← hs.length]
    omega
  refine ⟨?_, hlen⟩
  unfold HashImpl.openWord
  by_cases hstale : s.iNl % impl.wordSize = 0
  · rw [if_pos hstale, eq_nil_of_length_eq_zero (hlen.trans hstale)]
    rfl
  · rw [if_neg hstale]
    exact hs.data _ (by omega)

theorem Fed.putOctet (octet : UInt8) (hlimit : 8 * (msg ++ [octet]).length < limit) :
    ∃ next, impl.putOctet compress s octet = .ok next ∧
      impl.Fed order count compress (msg ++ [octet]) next := by
  obtain ⟨hopen, hlen⟩ := hs.openWord h
  have hmod := mod_lt s.iNl h.size
  have hconcat := chunk_concat h.size (carry impl.blockSize msg) octet
  rw [← hs.length] at hconcat
  apply hs.put h (by rw [length_singleton]; omega) hlimit
  rw [hconcat, pack_concat, hlen, hopen]

theorem Fed.putWord (hfirst : s.iNl % impl.wordSize = 0) (hdata : impl.wordSize ≤ aData.length)
    (hlimit : 8 * (msg ++ aData.take impl.wordSize).length < limit) :
    ∃ next, impl.putWord compress s aData = .ok next ∧
      impl.Fed order count compress (msg ++ aData.take impl.wordSize) next := by
  have hlen : (aData.take impl.wordSize).length = impl.wordSize := by
    rw [length_take]
    omega
  have hplace : s.iNl / impl.wordSize * impl.wordSize = s.iNl :=
    Nat.div_mul_cancel (dvd_of_mod_eq_zero hfirst)
  have hchunk : chunk impl.wordSize (s.iNl / impl.wordSize)
      (carry impl.blockSize msg ++ aData.take impl.wordSize) =
        aData.take impl.wordSize := by
    rw [chunk_append_right (by rw [hplace, hs.length]), hplace, hs.length, Nat.sub_self,
      drop_zero, take_of_length_le (le_of_eq hlen)]
  have hput := hs.put h (by rw [hlen, hfirst]; omega) hlimit
    (congrArg (pack impl.shift 0) hchunk).symm
  rw [hlen] at hput
  exact hput

end

end

/-! ### Update -/

section

variable (h : impl.Lawful order count limit)
include h

theorem Fed.putOctets (hs : impl.Fed order count compress msg s)
    (hlimit : 8 * (msg ++ aData).length < limit) :
    ∃ next, aData.foldlM (impl.putOctet compress) s = .ok next ∧
      impl.Fed order count compress (msg ++ aData) next := by
  induction aData generalizing msg s with
  | nil =>
      rw [append_nil]
      exact ⟨s, rfl, hs⟩
  | cons octet aData ih =>
      have hassoc : msg ++ octet :: aData = msg ++ [octet] ++ aData := by simp
      rw [hassoc] at hlimit
      have hlimit' : 8 * (msg ++ [octet]).length < limit := by
        rw [length_append] at hlimit
        omega
      obtain ⟨s', hput, hs'⟩ := hs.putOctet h octet hlimit'
      obtain ⟨next, hrest, hnext⟩ := ih hs' hlimit
      refine ⟨next, ?_, ?_⟩
      · rw [foldlM_cons, hput]
        exact hrest
      · rw [hassoc]
        exact hnext

/-- The loop over words takes a front of the input. -/
theorem Fed.putWords (hs : impl.Fed order count compress msg s)
    (hlimit : 8 * (msg ++ aData).length < limit) :
    ∃ next front rest, impl.putWords compress s aData = .ok (next, rest) ∧
      aData = front ++ rest ∧ impl.Fed order count compress (msg ++ front) next := by
  induction hn : aData.length using Nat.strong_induction_on generalizing msg aData s with
  | _ n ih =>
      unfold HashImpl.putWords
      by_cases hword : 0 < impl.wordSize ∧ impl.wordSize ≤ aData.length ∧
          s.iNl % impl.wordSize = 0
      · have hsplit : aData = aData.take impl.wordSize ++ aData.drop impl.wordSize :=
          (take_append_drop _ _).symm
        have hlimit' : 8 * (msg ++ aData.take impl.wordSize).length < limit := by
          rw [hsplit, ← List.append_assoc, length_append] at hlimit
          omega
        obtain ⟨s', hput, hs'⟩ := hs.putWord h hword.2.2 hword.2.1 hlimit'
        have hless : (aData.drop impl.wordSize).length < n := by
          rw [length_drop]
          omega
        have hlimit'' : 8 * (msg ++ aData.take impl.wordSize ++
            aData.drop impl.wordSize).length < limit := by
          rw [List.append_assoc, ← hsplit]
          exact hlimit
        obtain ⟨next, front, rest, hrun, hfront, hnext⟩ := ih _ hless hs' hlimit'' rfl
        refine ⟨next, aData.take impl.wordSize ++ front, rest, ?_, ?_, ?_⟩
        · rw [dif_pos hword, hput]
          exact hrun
        · rw [List.append_assoc, ← hfront, ← hsplit]
        · rw [← List.append_assoc]
          exact hnext
      · refine ⟨s, [], aData, ?_, rfl, ?_⟩
        · rw [dif_neg hword]
        · rw [append_nil]
          exact hs

/-- **`Update`, on both paths.** -/
theorem Fed.update (hs : impl.Fed order count compress msg s)
    (hlimit : 8 * (msg ++ aData).length < limit) :
    ∃ next, impl.update compress s aData = .ok next ∧
      impl.Fed order count compress (msg ++ aData) next := by
  unfold HashImpl.update
  by_cases hpath : impl.wordPath = true
  · obtain ⟨s', front, rest, hwords, hsplit, hs'⟩ := hs.putWords h hlimit
    subst hsplit
    rw [← List.append_assoc] at hlimit ⊢
    obtain ⟨next, hoctets, hnext⟩ := hs'.putOctets h hlimit
    rw [if_pos hpath, hwords]
    exact ⟨next, hoctets, hnext⟩
  · rw [if_neg hpath]
    exact hs.putOctets h hlimit

end

/-! ### Final -/

/-- The octets of the last two words. -/
def lengthOctets (impl : HashImpl) (iLength : impl.Length) : Bytes :=
  impl.wordOctets (impl.lengthWords iLength).1 ++ impl.wordOctets (impl.lengthWords iLength).2

section

variable (h : impl.Lawful order count limit)
include h

theorem lengthOctets_length (iLength : impl.Length) :
    (impl.lengthOctets iLength).length = 2 * impl.wordSize := by
  unfold lengthOctets
  rw [length_append, h.octets, h.octets, Nat.two_mul]

theorem pack_wordOctets {w : Nat} (hw : w < 256 ^ impl.wordSize) :
    pack impl.shift 0 (impl.wordOctets w) = w := by
  rw [h.number _ (h.octets w), h.order_octets w hw]

/-- The length is put behind fourteen words. -/
theorem data_length {iData : Nat → Nat} {front : Bytes} (hfront : front.length = 14 * impl.wordSize)
    (hdata : ∀ i < 14, iData i = pack impl.shift 0 (chunk impl.wordSize i front)) (n : Nat) :
    ∀ i < 16, Function.update (Function.update iData 14 (impl.lengthWords (count n)).1) 15
        (impl.lengthWords (count n)).2 i =
      pack impl.shift 0 (chunk impl.wordSize i
        (front ++ impl.lengthOctets (count n))) := by
  intro i hi
  obtain ⟨hhigh, hlow⟩ := h.lengthWords n
  have hoctets := h.octets
  unfold lengthOctets
  generalize (impl.lengthWords (count n)).1 = high at hhigh
  generalize (impl.lengthWords (count n)).2 = low at hlow
  by_cases hlast : i = 15
  · have hat : 15 * impl.wordSize - front.length = impl.wordSize := by omega
    rw [hlast, update_self, chunk_append_right (by omega), hat,
      drop_left' (hoctets high), take_of_length_le (le_of_eq (hoctets low)), pack_wordOctets h hlow]
  · rw [update_of_ne hlast]
    by_cases hnext : i = 14
    · rw [hnext, update_self, chunk_append_right (by omega), hfront, Nat.sub_self,
        drop_zero, take_left' (hoctets high), pack_wordOctets h hhigh]
    · have hfit : (i + 1) * impl.wordSize ≤ 14 * impl.wordSize :=
        Nat.mul_le_mul_right _ (by omega)
      rw [update_of_ne hnext, hdata i (by omega),
        chunk_append_left (by omega)]

section

variable (hs : impl.Fed order count compress msg s)
include hs

/-- The octet that starts the padding is put in like any other. -/
theorem Fed.startPadding :
    ∀ i, i * impl.wordSize < s.iNl + 1 →
      impl.startPadding s i = pack impl.shift 0 (chunk impl.wordSize i
        (carry impl.blockSize msg ++ [128])) := by
  obtain ⟨hopen, hlen⟩ := hs.openWord h
  have hmod := mod_lt s.iNl h.size
  have hdata := hs.data
  have hconcat := chunk_concat h.size (carry impl.blockSize msg) 128
  rw [← hs.length] at hconcat
  have hword : impl.addPadding (impl.openWord s) (128 <<< impl.shift (s.iNl % impl.wordSize)) =
      pack impl.shift 0 (chunk impl.wordSize (s.iNl / impl.wordSize)
        (carry impl.blockSize msg ++ [128])) := by
    rw [hopen, ← hlen, h.addPadding _ (by omega), hconcat]
  unfold HashImpl.startPadding
  rw [hs.length] at hdata hword hmod ⊢
  apply data_put h.size hdata _ hword
  rw [length_singleton]
  omega

/-- The padding and the length fit into the block. -/
theorem Fed.padMessage_fits (n : Nat) (hfits : ¬ s.iNl ≥ impl.blockSize - 2 * impl.wordSize) :
    (impl.block compress (impl.padMessage compress { s with iLength := count n })).iWords =
      chain (compressOctets order impl.wordSize compress) impl.blockSize impl.initial
        (pad 128 0 impl.blockSize (impl.lengthOctets (count n)) msg) := by
  have hstart := hs.startPadding h
  have hB : impl.blockSize = 16 * impl.wordSize := rfl
  have hfield := lengthOctets_length h (count n)
  have hlen := hs.length
  generalize hc : carry impl.blockSize msg = c at hstart hlen
  rw [chain_pad_fits h.blockSize_pos _ hc (by omega), ← hs.words]
  generalize hz : impl.blockSize - (c.length + 1 + (impl.lengthOctets (count n)).length) = z
  have hfront : (c ++ [128] ++ replicate z (0 : UInt8)).length = 14 * impl.wordSize := by
    simp only [length_append, length_replicate, length_singleton]
    omega
  have hfirst : (s.iNl + impl.wordSize) / impl.wordSize = s.iNl / impl.wordSize + 1 :=
    add_div_right _ h.size
  have hplace := div_add_mod' s.iNl impl.wordSize
  have hmod := mod_lt s.iNl h.size
  -- the words behind the open one are filled with zeros
  have hfilled : ∀ i < 14,
      fillZ (impl.startPadding s) ((s.iNl + impl.wordSize) / impl.wordSize) impl.filled i =
        pack impl.shift 0 (chunk impl.wordSize i
          (c ++ [128] ++ replicate z 0)) := by
    intro i hi
    rw [pack_chunk_zeros, hfirst]
    unfold fillZ
    by_cases hbehind : s.iNl / impl.wordSize + 1 ≤ i
    · have hnone : chunk impl.wordSize i (c ++ [128]) = [] := by
        have hmul : (s.iNl / impl.wordSize + 1) * impl.wordSize ≤ i * impl.wordSize :=
          Nat.mul_le_mul_right _ hbehind
        apply eq_nil_of_length_eq_zero
        rw [succ_mul] at hmul
        rw [chunk_length, length_append, length_singleton]
        omega
      rw [if_pos ⟨hbehind, Nat.lt_of_lt_of_le hi h.filled⟩, hnone]
      rfl
    · have hmul : i * impl.wordSize ≤ s.iNl / impl.wordSize * impl.wordSize :=
        Nat.mul_le_mul_right _ (by omega)
      rw [if_neg (fun hboth => hbehind hboth.1), hstart i (by omega)]
  have hall := data_length h hfront hfilled n
  have hblock : (c ++ [128] ++ replicate z (0 : UInt8) ++
      impl.lengthOctets (count n)).length = impl.blockSize := by
    rw [length_append, hfront]
    omega
  have hwords := map_iData h hblock hall
  have hfill : impl.fillPadding compress { s with iLength := count n } =
      { s with
        iLength := count n
        iData := fillZ (impl.startPadding s) ((s.iNl + impl.wordSize) / impl.wordSize)
          impl.filled } := if_neg hfits
  unfold padMessage
  rw [hfill]
  show compress s.iWords _ = compress s.iWords _
  rw [hwords]

/-- They do not, and the length goes into a block of its own. -/
theorem Fed.padMessage_spills (n : Nat) (hspills : s.iNl ≥ impl.blockSize - 2 * impl.wordSize) :
    (impl.block compress (impl.padMessage compress { s with iLength := count n })).iWords =
      chain (compressOctets order impl.wordSize compress) impl.blockSize impl.initial
        (pad 128 0 impl.blockSize (impl.lengthOctets (count n)) msg) := by
  have hstart := hs.startPadding h
  have hB : impl.blockSize = 16 * impl.wordSize := rfl
  have hfield := lengthOctets_length h (count n)
  have hlen := hs.length
  have hsize := h.size
  generalize hc : carry impl.blockSize msg = c at hstart hlen
  have hlt : c.length < impl.blockSize := by
    rw [← hc]
    exact carry_length_lt h.blockSize_pos msg
  rw [chain_pad_spills h.blockSize_pos _ hc (by omega) (by omega), ← hs.words]
  -- the first block: all words but perhaps the last are in use
  have hfirst : ∀ i < 16, (if s.iNl < impl.blockSize - impl.wordSize then
        Function.update (impl.startPadding s) 15 0 else impl.startPadding s) i =
      pack impl.shift 0 (chunk impl.wordSize i
        (c ++ [128] ++ replicate (impl.blockSize - (c.length + 1)) 0)) := by
    intro i hi
    have hplace : i * impl.wordSize ≤ 15 * impl.wordSize := Nat.mul_le_mul_right _ (by omega)
    rw [pack_chunk_zeros]
    by_cases hlast : s.iNl < impl.blockSize - impl.wordSize
    · rw [if_pos hlast]
      by_cases hi15 : i = 15
      · have hnone : chunk impl.wordSize i (c ++ [128]) = [] := by
          apply eq_nil_of_length_eq_zero
          rw [chunk_length, length_append, length_singleton, hi15]
          omega
        rw [hnone, hi15, update_self]
        rfl
      · have hbefore : i * impl.wordSize ≤ 14 * impl.wordSize :=
          Nat.mul_le_mul_right _ (by omega)
        rw [update_of_ne hi15, hstart i (by omega)]
    · rw [if_neg hlast, hstart i (by omega)]
  generalize hword : (if s.iNl < impl.blockSize - impl.wordSize then
    Function.update (impl.startPadding s) 15 0 else impl.startPadding s) = iData at hfirst
  have hfirstBlock : (c ++ [128] ++ replicate (impl.blockSize - (c.length + 1))
      (0 : UInt8)).length = impl.blockSize := by
    simp only [length_append, length_replicate, length_singleton]
    omega
  -- the second block: zeros and the length
  have hzeros : impl.blockSize - (impl.lengthOctets (count n)).length = 14 * impl.wordSize := by
    omega
  have hfilled : ∀ i < 14, fillZ iData 0 impl.filled i =
      pack impl.shift 0 (chunk impl.wordSize i
        (replicate (14 * impl.wordSize) 0)) := by
    intro i hi
    have hnil : pack impl.shift 0 (chunk impl.wordSize i
        ([] ++ replicate (14 * impl.wordSize) 0)) = 0 := by
      rw [pack_chunk_zeros, chunk_nil]
      rfl
    rw [nil_append] at hnil
    rw [hnil]
    exact if_pos ⟨Nat.zero_le i, Nat.lt_of_lt_of_le hi h.filled⟩
  have hsecond := data_length h length_replicate hfilled n
  have hsecondBlock : (replicate (14 * impl.wordSize) (0 : UInt8) ++
      impl.lengthOctets (count n)).length = impl.blockSize := by
    rw [length_append, length_replicate]
    omega
  have hfill : impl.fillPadding compress { s with iLength := count n } =
      { s with
        iWords := compress s.iWords ((range 16).map iData)
        iLength := count n
        iData := fillZ iData 0 impl.filled } := by
    rw [← hword]
    exact if_pos hspills
  unfold padMessage
  rw [hfill, hzeros]
  show compress (compress s.iWords _) _ = compress (compress s.iWords _) _
  rw [map_iData h hfirstBlock hfirst, map_iData h hsecondBlock hsecond]

end

end

/-- The digest of `msg`, with `field` for its length. -/
def digest (impl : HashImpl) (order : Order) (compress : List Nat → List Nat → List Nat)
    (field msg : Bytes) : Bytes :=
  impl.hashValue (MerkleDamgard.chain (compressOctets order impl.wordSize compress) impl.blockSize
    impl.initial (MerkleDamgard.pad 128 0 impl.blockSize field msg))

/-- **`Final`.**  The digest is that of the padded message, with the length as it is counted. -/
theorem Fed.final (h : impl.Lawful order count limit)
    (hs : impl.Fed order count compress msg s) (hlimit : 8 * msg.length < limit) :
    ∃ next, impl.final compress s =
      .ok (next, impl.digest order compress (impl.lengthOctets (count msg.length)) msg) := by
  have hcarry : (carry impl.blockSize msg).length = msg.length % impl.blockSize :=
    carry_length msg
  have hlen := hs.length
  have htotal := div_add_mod' msg.length impl.blockSize
  have hlt := mod_lt msg.length h.blockSize_pos
  have hsum : msg.length / impl.blockSize * impl.blockSize + s.iNl = msg.length := by omega
  have hadd := h.addLength (msg.length / impl.blockSize * impl.blockSize) s.iNl
    (by rw [hsum]; exact hlimit) (by omega)
  rw [hsum] at hadd
  have hwords : (impl.block compress
      (impl.padMessage compress { s with iLength := count msg.length })).iWords =
      chain (compressOctets order impl.wordSize compress) impl.blockSize impl.initial
        (pad 128 0 impl.blockSize (impl.lengthOctets (count msg.length)) msg) := by
    by_cases hspills : s.iNl ≥ impl.blockSize - 2 * impl.wordSize
    · exact hs.padMessage_spills h msg.length hspills
    · exact hs.padMessage_fits h msg.length hspills
  refine ⟨impl.block compress
    (impl.padMessage compress { s with iLength := count msg.length }), ?_⟩
  unfold HashImpl.final digest
  rw [hs.counted, hadd, ← hwords]
  rfl

/-! ### The interface -/

section

variable (h : impl.Lawful order count limit)
include h

/-- Whatever `iData` holds, nothing of it is read after `Reset`. -/
theorem Fed.reset (s : HashFields impl) : impl.Fed order count compress [] (impl.reset s) := by
  have hempty : carry impl.blockSize ([] : Bytes) = [] := by simp [carry]
  refine ⟨?_, ?_, ?_, ?_⟩
  · show impl.initial = _
    simp [chain, Blockwise.done]
  · rw [hempty]
    rfl
  · intro i hi
    exact absurd hi (Nat.not_lt_zero _)
  · rw [length_nil, Nat.zero_div, Nat.zero_mul, h.count_zero]
    rfl

/-- The copy has the words that are in use. -/
theorem Fed.copyL {o : HashObject impl} (hs : impl.Fed order count compress msg o.fields)
    (memory : HashFields impl) :
    impl.Fed order count compress msg (impl.copyL o memory).fields := by
  refine ⟨hs.words, hs.length, ?_, hs.counted⟩
  intro i hi
  have hi' : i * impl.wordSize < o.fields.iNl := hi
  have hlt := carry_length_lt h.blockSize_pos msg
  have hi16 : i < 16 := by
    apply Nat.lt_of_mul_lt_mul_right (a := impl.wordSize)
    rw [← hs.length] at hlt
    exact hi'.trans hlt
  show (if i < impl.copied then o.fields.iData i else memory.iData i) = _
  rw [if_pos (Nat.lt_of_lt_of_le hi16 h.copied)]
  exact hs.data i hi'

theorem Fed.updateLast (hs : impl.Fed order count compress msg s)
    (hlimit : 8 * (msg ++ aData).length < limit) :
    ∃ next, impl.updateLast compress s aData = .ok next ∧
      impl.Fed order count compress (msg ++ aData) next := by
  unfold HashImpl.updateLast
  by_cases hnil : aData = []
  · rw [if_neg (fun hne => hne hnil), hnil, append_nil]
    exact ⟨s, rfl, hs⟩
  · rw [if_pos hnil]
    exact hs.update h hlimit

section

variable {o : HashObject impl} (hs : impl.Fed order count compress msg o.fields)
include hs

/-- **`Hash`.**  It returns the digest of what has been fed and brings the state back. -/
theorem Fed.hashObject {aMessage : Bytes} (hlimit : 8 * (msg ++ aMessage).length < limit) :
    ∃ next, impl.hashObject compress o aMessage = .ok (next, impl.digest order compress
        (impl.lengthOctets (count (msg ++ aMessage).length)) (msg ++ aMessage)) ∧
      impl.Fed order count compress (msg ++ aMessage) next.fields := by
  obtain ⟨fields, hupdate, hfields⟩ := hs.update h hlimit
  obtain ⟨last, hfinal⟩ := hfields.final h hlimit
  refine ⟨{ fields := fields, copy := fields }, ?_, hfields⟩
  unfold HashImpl.hashObject
  rw [hupdate]
  simp only [ok_bind]
  rw [hfinal]
  rfl

/-- **`Final`.**  It starts afresh. -/
theorem Fed.finalObject {aMessage : Bytes} (hlimit : 8 * (msg ++ aMessage).length < limit) :
    ∃ next, impl.finalObject compress o aMessage = .ok (next, impl.digest order compress
        (impl.lengthOctets (count (msg ++ aMessage).length)) (msg ++ aMessage)) ∧
      impl.Fed order count compress [] next.fields := by
  obtain ⟨fields, hupdate, hfields⟩ := hs.updateLast h hlimit
  obtain ⟨last, hfinal⟩ := hfields.final h hlimit
  refine ⟨{ o with fields := impl.reset last }, ?_, Fed.reset h last⟩
  unfold HashImpl.finalObject
  rw [hupdate]
  simp only [ok_bind]
  rw [hfinal]
  rfl

end

end

end HashImpl

end OsSecurity
