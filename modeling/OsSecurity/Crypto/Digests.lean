/-
The digests of the six algorithms against those they are to compute.

`reference` is the hash by iteration: the message with a one, zeros and its length in bits
behind it, block by block.  The implementations count the length as they go.  SHA-2 counts
bits, in as many as the algorithm has, and its digests are the reference's; SHA-1 and MD5 count
octets in 32 bits, and theirs are as long as the length in bits is below 2^32
(`digests_iff`).
-/
import OsSecurity.Crypto.HashCalls

namespace OsSecurity

open Der HashCall List Nat Packing

variable {n k : Nat}

inductive HashAlgorithm where
  | sha1
  | md5
  | sha224
  | sha256
  | sha384
  | sha512
  deriving DecidableEq

namespace HashAlgorithm

def impl : HashAlgorithm → HashImpl
  | sha1 => CSHA1Impl
  | md5 => CMD5Impl
  | sha224 => CSHA224And256Impl SHA224InitVals 28
  | sha256 => CSHA224And256Impl SHA256InitVals 32
  | sha384 => CSHA384And512Impl SHA384InitVals 48
  | sha512 => CSHA384And512Impl SHA512InitVals 64

def order : HashAlgorithm → Order
  | md5 => littleEndianOrder
  | _ => bigEndianOrder

/-- The field for a message of so many octets. -/
def lengthField : HashAlgorithm → Nat → Bytes
  | md5, n => (fixed 8 (8 * n)).reverse
  | sha384, n => fixed 16 (8 * n)
  | sha512, n => fixed 16 (8 * n)
  | _, n => fixed 8 (8 * n)

/-- What the algorithm takes.  MD5 takes all messages, and the low 64 bits of the length. -/
def Within : HashAlgorithm → Nat → Prop
  | md5, _ => True
  | sha384, n => 8 * n < 2 ^ 128
  | sha512, n => 8 * n < 2 ^ 128
  | _, n => 8 * n < 2 ^ 64

/-- The digest of a message, for a compression function on words. -/
def reference (a : HashAlgorithm) (compress : List Nat → List Nat → List Nat) (msg : Bytes) :
    Bytes :=
  a.impl.digest a.order compress (a.lengthField msg.length) msg

end HashAlgorithm

namespace HashImpl

/-! ### How the implementations count -/

/-- Octets, in 32 bits. -/
def count32 (n : Nat) : Nat := n % 2 ^ 32

/-- Bits, in 64. -/
def count256 (n : Nat) : Nat := 8 * n % 2 ^ 64

/-- Bits, in two times 64. -/
def count512 (n : Nat) : Nat × Nat := (8 * n / 2 ^ 64 % 2 ^ 64, 8 * n % 2 ^ 64)

theorem bigEndian_apart {j : Nat} (hjk : j < k) (hk : k < n) :
    bigEndian n j + 8 ≤ bigEndian n k ∨
      bigEndian n k + 8 ≤ bigEndian n j := by
  unfold bigEndian
  omega

theorem bigEndian_bits (hk : k < n) : bigEndian n k + 8 ≤ 8 * n := by
  unfold bigEndian
  omega

theorem littleEndian_apart {j : Nat} (hjk : j < k) :
    littleEndian j + 8 ≤ littleEndian k ∨
      littleEndian k + 8 ≤ littleEndian j := by
  unfold littleEndian
  omega

theorem littleEndian_bits (hk : k < n) : littleEndian k + 8 ≤ 8 * n := by
  unfold littleEndian
  omega

theorem value_fixed_of_lt {v : Nat} (h : v < 256 ^ n) : Der.value (fixed n v) = v := by
  rw [value_fixed, mod_eq_of_lt h]

theorem lawful_sha1 (limit : Nat) : CSHA1Impl.Lawful bigEndianOrder count32 limit where
  size := by decide
  number := fun bs h => pack_bigEndian (by rw [Nat.zero_add]; exact h)
  addPadding := fun bs h => pack_add_mod 4 32
    (fun _ _ => bigEndian_apart) (fun _ => bigEndian_bits) h 128
  filled := Nat.le_refl _
  copied := by decide
  octets := fixed_length 4
  order_octets := fun _ => value_fixed_of_lt
  count_zero := rfl
  addLength := fun n k _ _ => congrArg Except.ok (mod_add_mod n (2 ^ 32) k)
  lengthWords := fun _ => ⟨(by decide : 0 < 256 ^ 4), mod_lt _ (by decide)⟩

theorem lawful_md5 (limit : Nat) : CMD5Impl.Lawful littleEndianOrder count32 limit where
  size := by decide
  number := fun bs _ => pack_littleEndian 0 bs
  addPadding := fun bs h => pack_add_mod 4 32
    (fun _ _ hjk _ => littleEndian_apart hjk) (fun _ => littleEndian_bits) h 128
  filled := Nat.le_refl _
  copied := Nat.le_refl _
  octets := fun w => (length_reverse).trans (fixed_length 4 w)
  order_octets := fun w h => by
    show Der.value (fixed 4 w).reverse.reverse = w
    rw [reverse_reverse]
    exact value_fixed_of_lt h
  count_zero := rfl
  addLength := fun n k _ _ => congrArg Except.ok (mod_add_mod n (2 ^ 32) k)
  lengthWords := fun _ => ⟨mod_lt _ (by decide), (by decide : 0 < 256 ^ 4)⟩

theorem addLength256_count (h : 8 * (n + k) < 2 ^ 64) (hk : k ≤ 64) :
    addLength256 (count256 n) k = .ok (count256 (n + k)) := by
  have hbits : (k <<< 3) % 2 ^ 32 = 8 * k := by
    rw [shiftLeft_eq]
    omega
  have hn : count256 n = 8 * n := mod_eq_of_lt (by omega)
  have hsum : (8 * n + 8 * k) % 2 ^ 64 = count256 (n + k) := by
    unfold count256
    rw [Nat.mul_add]
  have hnk : count256 (n + k) = 8 * (n + k) := mod_eq_of_lt h
  unfold addLength256
  simp only
  rw [hbits, hn, hsum, hnk, if_pos (by omega)]

theorem addLength512_count (h : 8 * (n + k) < 2 ^ 128) (hk : k ≤ 128) :
    addLength512 (count512 n) k = .ok (count512 (n + k)) := by
  have hbits : (k <<< 3) % 2 ^ 64 = 8 * k := by
    rw [shiftLeft_eq]
    omega
  have hlow : (8 * n % 2 ^ 64 + 8 * k) % 2 ^ 64 = 8 * (n + k) % 2 ^ 64 := by omega
  have hhigh : (8 * n / 2 ^ 64 % 2 ^ 64 +
      if 8 * n % 2 ^ 64 > 8 * (n + k) % 2 ^ 64 then 1 else 0) % 2 ^ 64 =
        8 * (n + k) / 2 ^ 64 % 2 ^ 64 := by
    by_cases hcarry : 8 * n % 2 ^ 64 > 8 * (n + k) % 2 ^ 64
    · rw [if_pos hcarry]
      omega
    · rw [if_neg hcarry]
      omega
  unfold addLength512 count512
  simp only
  rw [hbits, hlow, if_pos (by omega), hhigh]

theorem lawful_sha256 (iInitValues : List Nat) (iHashSize : Nat) {limit : Nat}
    (hlimit : limit ≤ 2 ^ 64) :
    (CSHA224And256Impl iInitValues iHashSize).Lawful bigEndianOrder count256 limit where
  size := (by decide : 0 < 4)
  number := fun bs h => pack_bigEndian (by rw [Nat.zero_add]; exact h)
  addPadding := fun bs _ => (pack_concat bs 128).symm
  filled := (by decide : 14 ≤ 16)
  copied := (by decide : 16 ≤ 64)
  octets := fixed_length 4
  order_octets := fun _ => value_fixed_of_lt
  count_zero := rfl
  addLength := fun n k hn hk => addLength256_count (Nat.lt_of_lt_of_le hn hlimit) hk
  lengthWords := fun n => by
    have hlt : count256 n < 2 ^ 64 := mod_lt _ (by decide)
    refine ⟨?_, lt_succ_of_le and_le_right⟩
    show count256 n >>> 32 < 256 ^ 4
    rw [shiftRight_eq_div_pow]
    omega

theorem lawful_sha512 (iInitValues : List Nat) (iHashSize : Nat) {limit : Nat}
    (hlimit : limit ≤ 2 ^ 128) :
    (CSHA384And512Impl iInitValues iHashSize).Lawful bigEndianOrder count512 limit where
  size := (by decide : 0 < 8)
  number := fun bs h => pack_bigEndian (by rw [Nat.zero_add]; exact h)
  addPadding := fun bs _ => (pack_concat bs 128).symm
  filled := (by decide : 14 ≤ 16)
  copied := (by decide : 16 ≤ 128)
  octets := fixed_length 8
  order_octets := fun _ => value_fixed_of_lt
  count_zero := rfl
  addLength := fun n k hn hk => addLength512_count (Nat.lt_of_lt_of_le hn hlimit) hk
  lengthWords := fun _ => ⟨mod_lt _ (by decide), mod_lt _ (by decide)⟩

/-! ### The length in the padding -/

theorem lengthOctets_sha256 (iInitValues : List Nat) (iHashSize n : Nat) :
    (CSHA224And256Impl iInitValues iHashSize).lengthOctets (count256 n) = fixed 8 (8 * n) := by
  have hlow : count256 n &&& 0xFFFFFFFF = count256 n % 256 ^ 4 :=
    and_two_pow_sub_one_eq_mod (count256 n) 32
  have hhigh : count256 n >>> 32 = count256 n / 256 ^ 4 := shiftRight_eq_div_pow _ _
  have hmod : fixed 8 (count256 n) = fixed 8 (8 * n) := fixed_mod 8 (8 * n)
  have hadd : fixed 8 (count256 n) = _ := fixed_add 4 4 (count256 n)
  show fixed 4 (count256 n >>> 32) ++ fixed 4 (count256 n &&& 0xFFFFFFFF) = _
  rw [hlow, hhigh, fixed_mod, ← hadd, hmod]

theorem lengthOctets_sha512 (iInitValues : List Nat) (iHashSize n : Nat) :
    (CSHA384And512Impl iInitValues iHashSize).lengthOctets (count512 n) =
      fixed 16 (8 * n) := by
  have hword : 2 ^ 64 = 256 ^ 8 := by norm_num
  have hadd : fixed 16 (8 * n) = _ := fixed_add 8 8 (8 * n)
  show fixed 8 (8 * n / 2 ^ 64 % 2 ^ 64) ++ fixed 8 (8 * n % 2 ^ 64) = _
  rw [hword, fixed_mod, fixed_mod, ← hadd]

theorem count32_shift (n : Nat) : (count32 n <<< 3) % 2 ^ 32 = 8 * n % 2 ^ 32 := by
  unfold count32
  rw [shiftLeft_eq]
  omega

/-- The field that a word of 32 bits makes. -/
theorem fixed_word (n : Nat) :
    fixed 4 0 ++ fixed 4 (8 * n % 2 ^ 32) = fixed 8 (8 * n % 2 ^ 32) := by
  have hhigh : 8 * n % 2 ^ 32 / 256 ^ 4 = 0 := div_eq_of_lt (mod_lt _ (by decide))
  have hadd := fixed_add 4 4 (8 * n % 2 ^ 32)
  rw [hhigh] at hadd
  exact hadd.symm

theorem lengthOctets_sha1 (n : Nat) :
    CSHA1Impl.lengthOctets (count32 n) = fixed 8 (8 * n % 2 ^ 32) := by
  show fixed 4 0 ++ fixed 4 ((count32 n <<< 3) % 2 ^ 32) = _
  rw [count32_shift, fixed_word]

theorem lengthOctets_md5 (n : Nat) :
    CMD5Impl.lengthOctets (count32 n) = (fixed 8 (8 * n % 2 ^ 32)).reverse := by
  show (fixed 4 ((count32 n <<< 3) % 2 ^ 32)).reverse ++ (fixed 4 0).reverse = _
  rw [count32_shift, ← reverse_append, fixed_word]

/-- It is the length of the message if that has no more than 32 bits. -/
theorem fixed_word_iff (n : Nat) :
    fixed 8 (8 * n % 2 ^ 32) = fixed 8 (8 * n) ↔ 8 * n % 2 ^ 64 < 2 ^ 32 := by
  constructor
  · intro heq
    have hvalue := congrArg Der.value heq
    rw [value_fixed, value_fixed] at hvalue
    omega
  · intro hlt
    have hsame : 8 * n % 2 ^ 32 = 8 * n % 256 ^ 8 := by omega
    rw [hsame, fixed_mod]

end HashImpl

namespace HashAlgorithm

open HashImpl

def count : (a : HashAlgorithm) → Nat → a.impl.Length
  | sha1 => count32
  | md5 => count32
  | sha224 => count256
  | sha256 => count256
  | sha384 => count512
  | sha512 => count512

theorem lawful (a : HashAlgorithm) (h : a.Within n) :
    a.impl.Lawful a.order a.count (8 * n + 1) := by
  cases a with
  | sha1 => exact lawful_sha1 _
  | md5 => exact lawful_md5 _
  | sha224 => exact lawful_sha256 _ _ h
  | sha256 => exact lawful_sha256 _ _ h
  | sha384 => exact lawful_sha512 _ _ h
  | sha512 => exact lawful_sha512 _ _ h

theorem within_zero (a : HashAlgorithm) : a.Within 0 := by
  cases a <;> simp [Within]

/-- The two that count in 32 bits. -/
def Counts32 (a : HashAlgorithm) : Prop := a = sha1 ∨ a = md5

/-- The length that the implementation has counted, and the one that the reference asks for. -/
theorem lengthOctets_iff (a : HashAlgorithm) (n : Nat) :
    a.impl.lengthOctets (a.count n) = a.lengthField n ↔
      (a.Counts32 → 8 * n % 2 ^ 64 < 2 ^ 32) := by
  have hother : ∀ b : HashAlgorithm, b ≠ sha1 → b ≠ md5 → ¬ b.Counts32 := by
    intro b h1 h2 hb
    exact hb.elim h1 h2
  cases a with
  | sha1 =>
      show CSHA1Impl.lengthOctets (count32 n) = fixed 8 (8 * n) ↔ _
      rw [lengthOctets_sha1, fixed_word_iff]
      exact ⟨fun h _ => h, fun h => h (Or.inl rfl)⟩
  | md5 =>
      show CMD5Impl.lengthOctets (count32 n) = (fixed 8 (8 * n)).reverse ↔ _
      rw [lengthOctets_md5, reverse_inj, fixed_word_iff]
      exact ⟨fun h _ => h, fun h => h (Or.inr rfl)⟩
  | sha224 =>
      exact iff_of_true (lengthOctets_sha256 _ _ n)
        (fun h => absurd h (hother _ (by decide) (by decide)))
  | sha256 =>
      exact iff_of_true (lengthOctets_sha256 _ _ n)
        (fun h => absurd h (hother _ (by decide) (by decide)))
  | sha384 =>
      exact iff_of_true (lengthOctets_sha512 _ _ n)
        (fun h => absurd h (hother _ (by decide) (by decide)))
  | sha512 =>
      exact iff_of_true (lengthOctets_sha512 _ _ n)
        (fun h => absurd h (hother _ (by decide) (by decide)))

theorem lengthField_length (a : HashAlgorithm) (n : Nat) :
    (a.lengthField n).length = 2 * a.impl.wordSize := by
  cases a with
  | md5 => exact (length_reverse).trans (fixed_length 8 _)
  | sha384 => exact fixed_length 16 _
  | sha512 => exact fixed_length 16 _
  | sha1 => exact fixed_length 8 _
  | sha224 => exact fixed_length 8 _
  | sha256 => exact fixed_length 8 _

end HashAlgorithm

namespace HashImpl

variable {impl : HashImpl} {order : Order} {count : Nat → impl.Length} {limit : Nat}

/-- A compression function that shows the field. -/
def expose : List Nat → List Nat → List Nat := fun _ words => words.drop 14

theorem digest_expose (h : impl.Lawful order count limit)
    (horder : ∀ bs : Bytes, bs.length = impl.wordSize → impl.wordOctets (order bs) = bs)
    (hroom : 2 * impl.wordSize ≤ impl.hashSize) {field : Bytes}
    (hfield : field.length = 2 * impl.wordSize) (msg : Bytes) :
    impl.digest order expose field msg = field := by
  have hB : impl.blockSize = 16 * impl.wordSize := rfl
  have hsize := h.size
  obtain ⟨s, zs, hlen, hlast⟩ : ∃ s zs, zs.length + field.length = impl.blockSize ∧
      MerkleDamgard.chain (compressOctets order impl.wordSize expose) impl.blockSize impl.initial
        (MerkleDamgard.pad 128 0 impl.blockSize field msg) =
          compressOctets order impl.wordSize expose s (zs ++ field) :=
    MerkleDamgard.chain_pad_last h.blockSize_pos (by omega) impl.initial msg
  have hzs : zs.length = 14 * impl.wordSize := by omega
  have hfirst : chunk impl.wordSize 14 (zs ++ field) = field.take impl.wordSize := by
    rw [chunk_append_right (le_of_eq hzs), hzs, Nat.sub_self, drop_zero]
  have hsecond : chunk impl.wordSize 15 (zs ++ field) = field.drop impl.wordSize := by
    have hat : 15 * impl.wordSize - zs.length = impl.wordSize := by omega
    rw [chunk_append_right (by omega), hat, take_of_length_le]
    rw [length_drop]
    omega
  have hwords : compressOctets order impl.wordSize expose s (zs ++ field) =
      [order (field.take impl.wordSize), order (field.drop impl.wordSize)] := by
    show [order (chunk impl.wordSize 14 (zs ++ field)),
      order (chunk impl.wordSize 15 (zs ++ field))] = _
    rw [hfirst, hsecond]
  unfold digest hashValue
  rw [hlast, hwords]
  simp only [flatMap_cons, flatMap_nil, append_nil]
  rw [horder _ (by rw [length_take]; omega), horder _ (by rw [length_drop]; omega),
    take_append_drop, take_of_length_le (by omega)]

end HashImpl

namespace HashAlgorithm

open HashImpl

theorem fixed_value_of_length {bs : Bytes} (h : bs.length = n) : fixed n (Der.value bs) = bs := by
  rw [← h]
  exact fixed_value bs

/-- What the two show of a digest is the length in it. -/
theorem digest_expose_field (a : HashAlgorithm) (ha : a.Counts32) {field : Bytes}
    (hfield : field.length = 2 * a.impl.wordSize) (msg : Bytes) :
    a.impl.digest a.order expose field msg = field := by
  rcases ha with rfl | rfl
  · exact HashImpl.digest_expose (lawful_sha1 0) (fun bs h => fixed_value_of_length h)
      (by decide) hfield msg
  · apply HashImpl.digest_expose (lawful_md5 0) _ (by decide) hfield msg
    intro bs h
    show (fixed 4 (Der.value bs.reverse)).reverse = bs
    rw [fixed_value_of_length (by rw [length_reverse]; exact h), reverse_reverse]

/-- What a run of calls returns on a new hash. -/
theorem callsL_newL (a : HashAlgorithm) (compress : List Nat → List Nat → List Nat)
    (memory : HashFields a.impl) (calls : List (HashCall a.impl))
    (hwithin : ∀ msg ∈ along lengthened [[]] calls, a.Within msg.length) :
    ∃ hashes, a.impl.callsL compress [a.impl.newL memory] calls = .ok (hashes,
      (along digested [[]] calls).map
        (a.impl.counted a.order a.count compress)) :=
  (HashImpl.allFed_newL (a.lawful a.within_zero) memory).callsL calls a.within_zero
    (fun _ => a.lawful) hwithin

/-- The reference's digests ask for lengths of 32 bits, where that is how the implementation
counts. -/
theorem short_of_reference (a : HashAlgorithm) (memory : HashFields a.impl)
    (calls : List (HashCall a.impl))
    (hwithin : ∀ msg ∈ along lengthened [[]] calls, a.Within msg.length)
    (hall : ∀ compress, ∃ hashes, a.impl.callsL compress [a.impl.newL memory] calls =
      .ok (hashes, (along digested [[]] calls).map (a.reference compress))) (ha : a.Counts32) :
    ∀ msg ∈ along digested [[]] calls, 8 * msg.length % 2 ^ 64 < 2 ^ 32 := by
  intro msg hmsg
  obtain ⟨hashes, href⟩ := hall expose
  obtain ⟨hashes', hrun⟩ := a.callsL_newL expose memory calls hwithin
  rw [hrun] at href
  have hmaps := (Prod.mk.inj (Except.ok.inj href)).2
  have hsame : a.impl.counted a.order a.count expose msg = a.reference expose msg :=
    map_inj_left.mp hmaps msg hmsg
  have hlen : (a.impl.lengthOctets (a.count msg.length)).length = 2 * a.impl.wordSize :=
    HashImpl.lengthOctets_length (a.lawful a.within_zero) _
  unfold HashImpl.counted reference at hsame
  rw [a.digest_expose_field ha hlen, a.digest_expose_field ha (a.lengthField_length _)] at hsame
  exact (a.lengthOctets_iff msg.length).mp hsame ha

theorem reference_of_short (a : HashAlgorithm) (memory : HashFields a.impl)
    (calls : List (HashCall a.impl))
    (hwithin : ∀ msg ∈ along lengthened [[]] calls, a.Within msg.length)
    (hshort : a.Counts32 → ∀ msg ∈ along digested [[]] calls,
      8 * msg.length % 2 ^ 64 < 2 ^ 32) (compress : List Nat → List Nat → List Nat) :
    ∃ hashes, a.impl.callsL compress [a.impl.newL memory] calls =
      .ok (hashes, (along digested [[]] calls).map (a.reference compress)) := by
  obtain ⟨hashes, hrun⟩ := a.callsL_newL compress memory calls hwithin
  refine ⟨hashes, ?_⟩
  have hmaps : ∀ msg ∈ along digested [[]] calls,
      a.impl.counted a.order a.count compress msg = a.reference compress msg := by
    intro msg hmsg
    unfold HashImpl.counted reference
    rw [(a.lengthOctets_iff msg.length).mpr fun ha => hshort ha msg hmsg]
  rw [hrun, map_congr_left hmaps]

/-- **The digests of a run.**  Whatever is called in which order, they are those of what has
been fed, if and only if no message is too long for a length of 32 bits, where that is how the
implementation counts. -/
theorem digests_iff (a : HashAlgorithm) (memory : HashFields a.impl)
    (calls : List (HashCall a.impl))
    (hwithin : ∀ msg ∈ HashCall.along HashCall.lengthened [[]] calls, a.Within msg.length) :
    (∀ compress, ∃ hashes, a.impl.callsL compress [a.impl.newL memory] calls =
        .ok (hashes, (HashCall.along HashCall.digested [[]] calls).map (a.reference compress))) ↔
      (a.Counts32 → ∀ msg ∈ HashCall.along HashCall.digested [[]] calls,
        8 * msg.length % 2 ^ 64 < 2 ^ 32) :=
  ⟨a.short_of_reference memory calls hwithin, a.reference_of_short memory calls hwithin⟩

/-- Whatever was there before. -/
def memory (impl : HashImpl) : HashFields impl := ⟨[], fun _ => 1, 7, impl.zero⟩

/-- Two hashes that part after their first octet. -/
def partingCalls : List (HashCall sha256.impl) :=
  [.update 0 [1], .copyL 0 (memory _), .hash 1 [2], .final 0 [], .final 1 [3]]

theorem digests_iff_parting :
    (HashCall.along HashCall.digested [[]] partingCalls = [[1, 2], [1], [1, 2, 3]]) ∧
      ∀ compress, ∃ hashes, sha256.impl.callsL compress [sha256.impl.newL (memory _)]
        partingCalls = .ok (hashes, (HashCall.along HashCall.digested [[]] partingCalls).map
          (sha256.reference compress)) := by
  have hwithin : ∀ msg ∈ HashCall.along HashCall.lengthened [[]] partingCalls,
      sha256.Within msg.length := by
    intro msg hmsg
    have hone : msg ∈ [[1], [1, 2], [1], [1, 2, 3]] := hmsg
    simp only [mem_cons, not_mem_nil, or_false] at hone
    show 8 * msg.length < 2 ^ 64
    rcases hone with rfl | rfl | rfl | rfl <;> decide
  exact ⟨rfl, (digests_iff sha256 (memory _) partingCalls hwithin).mpr
    fun h => h.elim (fun h => nomatch h) (fun h => nomatch h)⟩

/-- The octets of a message in four parts. -/
def quarterCalls (part : Bytes) : List (HashCall sha1.impl) :=
  [.update 0 part, .update 0 part, .update 0 part, .final 0 part]

theorem not_reference_of_quarter {part : Bytes} (hlen : part.length = 2 ^ 27) :
    (∀ msg ∈ along lengthened [[]] (quarterCalls part),
      sha1.Within msg.length) ∧
    ¬ ∀ compress, ∃ hashes, sha1.impl.callsL compress [sha1.impl.newL (memory _)]
        (quarterCalls part) = .ok (hashes, (along digested [[]]
          (quarterCalls part)).map (sha1.reference compress)) := by
  have hwithin : ∀ msg ∈ along lengthened [[]] (quarterCalls part),
      sha1.Within msg.length := by
    intro msg hmsg
    show 8 * msg.length < 2 ^ 64
    have hparts : msg ∈ [[] ++ part, [] ++ part ++ part, [] ++ part ++ part ++ part,
        [] ++ part ++ part ++ part ++ part] := hmsg
    simp only [mem_cons, not_mem_nil, or_false] at hparts
    rcases hparts with rfl | rfl | rfl | rfl <;>
      simp only [length_append, length_nil, hlen] <;> omega
  refine ⟨hwithin, ?_⟩
  intro hall
  have hshort := sha1.short_of_reference (memory _) (quarterCalls part) hwithin hall (Or.inl rfl)
    ([] ++ part ++ part ++ part ++ part) mem_cons_self
  simp only [length_append, length_nil, hlen] at hshort
  omega

theorem not_reference_sha1 :
    (∀ msg ∈ HashCall.along HashCall.lengthened [[]] (quarterCalls (replicate (2 ^ 27) 0)),
      sha1.Within msg.length) ∧
    ¬ ∀ compress, ∃ hashes, sha1.impl.callsL compress [sha1.impl.newL (memory _)]
        (quarterCalls (replicate (2 ^ 27) 0)) = .ok (hashes,
          (HashCall.along HashCall.digested [[]]
            (quarterCalls (replicate (2 ^ 27) 0))).map (sha1.reference compress)) :=
  not_reference_of_quarter length_replicate

end HashAlgorithm

end OsSecurity
