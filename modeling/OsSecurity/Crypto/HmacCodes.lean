/-
The codes of the keyed hash against the keyed hash over the reference.

Every hash serves it.  All but that of `md2impl.cpp` bring back what they have stored; MD4
counts its length as MD5 and SHA-1 do, in 32 bits.  So the codes are right as long as no
length that is hashed has more bits than that, and, with MD2, as long as `Hash` is called
between blocks (`codes_of_met`).
-/
import OsSecurity.Crypto.Hmac

namespace OsSecurity

open List Nat

/-- `CMD4Impl` differs from `CMD5Impl` in `Block`. -/
def CMD4Impl : HashImpl where
  wordSize := 4
  shift := Packing.littleEndian
  wordPath := false
  addPadding := fun word octet => (word + octet) % 2 ^ 32
  filled := 14
  copied := 16
  Length := Nat
  zero := 0
  addLength := fun iNh aLength => .ok ((iNh + aLength) % 2 ^ 32)
  lengthWords := fun iNh => ((iNh <<< 3) % 2 ^ 32, 0)
  initial := [0x67452301, 0xefcdab89, 0x98badcfe, 0x10325476]
  wordOctets := fun word => (Der.fixed 4 word).reverse
  hashSize := 16

namespace HashImpl

variable {impl : HashImpl} {order : Order} {count : Nat → impl.Length}
  {compress : List Nat → List Nat → List Nat} {within : Nat → Prop}

/-- The hash behind the interface. -/
def plugin (impl : HashImpl) (compress : List Nat → List Nat → List Nat) : MSoftwareHash where
  Object := HashObject impl
  blockSize := impl.blockSize
  reset := fun o => { o with fields := impl.reset o.fields }
  update := impl.updateObject compress
  hash := impl.hashObject compress
  final := impl.finalObject compress
  storeState := fun o => { o with copy := o.fields }
  restoreState := fun o => { o with fields := o.copy }

theorem finalObject_copy {o next : HashObject impl} {aMessage iHash : Bytes}
    (h : impl.finalObject compress o aMessage = .ok (next, iHash)) : next.copy = o.copy := by
  obtain ⟨fields, -, hrest⟩ := bind_eq_ok.mp h
  obtain ⟨last, -, hnext⟩ := bind_eq_ok.mp hrest
  cases hnext
  rfl

theorem hashValue_length (impl : HashImpl) (iWords : List Nat) :
    (impl.hashValue iWords).length ≤ impl.hashSize := by
  unfold hashValue
  rw [length_take]
  exact Nat.min_le_left _ _

/-- Such a hash serves the keyed hash, and keeps all of the message. -/
theorem serves (hzero : within 0) (hlawful : ∀ n, within n → impl.Lawful order count (8 * n + 1))
    (hwithin : ∀ m n, m ≤ n → within n → within m) (hsize : impl.hashSize ≤ impl.blockSize)
    (houter : within (impl.blockSize + impl.blockSize)) :
    Serves (impl.plugin compress) (impl.counted order count compress) within id
      (fun msg o => impl.Fed order count compress msg o.fields)
      (fun msg o => impl.Fed order count compress msg o.copy) where
  reset := fun o => Fed.reset (hlawful 0 hzero) o.fields
  update := by
    intro msg o aMessage hfed hlen
    obtain ⟨fields, hupdate, hfields⟩ := hfed.update (hlawful _ hlen) (lt_succ_self _)
    refine ⟨{ o with fields := fields }, ?_, hfields, fun stored hs => hs⟩
    show impl.updateObject compress o aMessage = _
    unfold updateObject
    rw [hupdate]
    rfl
  hash := fun msg o aMessage hfed hlen =>
    hfed.hashObject (hlawful _ hlen) (lt_succ_self _)
  final := by
    intro msg o aMessage hfed hlen
    obtain ⟨next, hfinal, hnext⟩ := hfed.finalObject (hlawful _ hlen) (lt_succ_self _)
    refine ⟨next, hfinal, hnext, ?_⟩
    intro stored hs
    rw [finalObject_copy hfinal]
    exact hs
  store := fun msg o hfed => ⟨hfed, hfed⟩
  restore := fun msg o _ hs => hs
  keep_block := fun block msg _ => rfl
  keep_length := fun msg => Nat.le_refl _
  within_le := hwithin
  digest_length := fun msg => (hashValue_length impl _).trans hsize
  outer := houter

theorem lawful_md4 (limit : Nat) : CMD4Impl.Lawful littleEndianOrder count32 limit :=
  lawful_md5 limit

end HashImpl

namespace CMD2Impl

/-- The hash behind the interface. -/
def plugin (compress : Compression) : MSoftwareHash where
  Object := CMD2Impl
  blockSize := KMD2BlockSize
  reset := reset
  update := fun o aMessage => .ok (o.update compress aMessage)
  hash := fun o aMessage => .ok (o.hash compress aMessage)
  final := fun o aMessage => .ok (o.final compress aMessage)
  storeState := storeState
  restoreState := restoreState

theorem wholeBlocks_block {block : Bytes} (h : block.length = KMD2BlockSize) (msg : Bytes) :
    wholeBlocks (block ++ msg) = block ++ wholeBlocks msg := by
  have hB : 0 < KMD2BlockSize := by decide
  unfold wholeBlocks
  rw [length_append, h, add_div_left _ hB, succ_mul, Nat.add_comm, ← h, take_length_add_append]

/-- It serves the keyed hash, but keeps whole blocks. -/
theorem serves (compress : Compression) :
    Serves (plugin compress) (digest compress) (fun _ => True) wholeBlocks (Fed compress)
      (Stored compress) where
  reset := fun o => Fed.reset o
  update := fun msg o aMessage hfed _ =>
    ⟨_, rfl, (hfed.update aMessage).1, fun stored hs => (hfed.update aMessage).2.stored hs⟩
  hash := by
    intro msg o aMessage hfed _
    obtain ⟨hdigest, hnext⟩ := hfed.hash aMessage
    exact ⟨_, congrArg Except.ok (Prod.ext rfl hdigest), hnext⟩
  final := by
    intro msg o aMessage hfed _
    obtain ⟨hdigest, hnext, hcopies⟩ := hfed.final aMessage
    exact ⟨_, congrArg Except.ok (Prod.ext rfl hdigest), hnext, fun stored hs =>
      hcopies.stored hs⟩
  store := fun msg o hfed => hfed.store
  restore := fun msg o hfed hs => hfed.restore hs
  keep_block := fun block msg h => wholeBlocks_block h msg
  keep_length := fun msg => by
    rw [wholeBlocks_length]
    exact div_mul_le_self _ _
  within_le := fun _ _ _ _ => trivial
  digest_length := fun msg => le_of_eq (lowOctets_length _)
  outer := trivial

end CMD2Impl

/-- The hashes that there is a keyed hash over. -/
inductive HmacHash where
  | md2
  | md4
  | hash (a : HashAlgorithm)

namespace HmacHash

def Compression : HmacHash → Type
  | md2 => CMD2Impl.Compression
  | md4 => List Nat → List Nat → List Nat
  | hash _ => List Nat → List Nat → List Nat

def plugin : (h : HmacHash) → h.Compression → MSoftwareHash
  | md2, compress => CMD2Impl.plugin compress
  | md4, compress => CMD4Impl.plugin compress
  | hash a, compress => a.impl.plugin compress

def blockSize : HmacHash → Nat
  | md2 => KMD2BlockSize
  | md4 => CMD4Impl.blockSize
  | hash a => a.impl.blockSize

/-- The digest that the algorithm is to have. -/
def reference : (h : HmacHash) → h.Compression → Bytes → Bytes
  | md2, compress, msg => CMD2Impl.digest compress msg
  | md4, compress, msg =>
    CMD4Impl.digest littleEndianOrder compress (Der.fixed 8 (8 * msg.length)).reverse msg
  | hash a, compress, msg => a.reference compress msg

/-- What the algorithm takes. -/
def Within : HmacHash → Nat → Prop
  | md2, _ => True
  | md4, _ => True
  | hash a, n => a.Within n

/-- Those that count in 32 bits. -/
def Counts32 : HmacHash → Prop
  | md2 => False
  | md4 => True
  | hash a => a.Counts32

/-- What is left of a message behind `StoreState` and `RestoreState`. -/
def keep : HmacHash → Bytes → Bytes
  | md2 => CMD2Impl.wholeBlocks
  | md4 => id
  | hash _ => id

/-- The length is counted right. -/
def Counted (h : HmacHash) (n : Nat) : Prop := h.Counts32 → 8 * n % 2 ^ 64 < 2 ^ 32

/-- The condition on a call: the lengths that it hashes are counted right, and `Hash` of MD2
is called between blocks. -/
def Meets (h : HmacHash) (d : HmacData) : HmacCall → Prop
  | .update _ => True
  | .hash aMessage => (h = md2 → KMD2BlockSize ∣ d.msg.length) ∧
      h.Counted (h.blockSize + (d.msg ++ aMessage).length)
  | .final aMessage => h.Counted (h.blockSize + (d.msg ++ aMessage).length)
  | .reset => True
  | .setKeyL aKey => aKey.length > h.blockSize → h.Counted aKey.length

/-- The digest as it is computed. -/
def counted : (h : HmacHash) → h.Compression → Bytes → Bytes
  | md2, compress => CMD2Impl.digest compress
  | md4, compress => CMD4Impl.counted littleEndianOrder HashImpl.count32 compress
  | hash a, compress => a.impl.counted a.order a.count compress

theorem counted_eq_reference (h : HmacHash) (compress : h.Compression) {msg : Bytes}
    (hcounted : h.Counted msg.length) : h.counted compress msg = h.reference compress msg := by
  cases h with
  | md2 => rfl
  | md4 =>
      have hfield : CMD4Impl.lengthOctets (HashImpl.count32 msg.length) =
          (Der.fixed 8 (8 * msg.length)).reverse := by
        have hword := (HashImpl.fixed_word_iff msg.length).mpr (hcounted trivial)
        rw [← hword]
        exact HashImpl.lengthOctets_md5 msg.length
      show CMD4Impl.digest _ _ _ _ = _
      rw [hfield]
      rfl
  | hash a =>
      show a.impl.digest _ _ _ _ = _
      rw [(a.lengthOctets_iff msg.length).mpr hcounted]
      rfl

theorem within_le (h : HmacHash) {m n : Nat} (hmn : m ≤ n) (hn : h.Within n) : h.Within m := by
  have hbits : 8 * m ≤ 8 * n := Nat.mul_le_mul_left 8 hmn
  cases h with
  | md2 => trivial
  | md4 => trivial
  | hash a =>
      cases a with
      | md5 => trivial
      | sha1 => exact Nat.lt_of_le_of_lt hbits hn
      | sha224 => exact Nat.lt_of_le_of_lt hbits hn
      | sha256 => exact Nat.lt_of_le_of_lt hbits hn
      | sha384 => exact Nat.lt_of_le_of_lt hbits hn
      | sha512 => exact Nat.lt_of_le_of_lt hbits hn

theorem hash_within (a : HashAlgorithm) : a.Within (a.impl.blockSize + a.impl.blockSize) ∧
    a.impl.hashSize ≤ a.impl.blockSize ∧ a.impl.blockSize ≤ 128 := by
  cases a with
  | sha1 => exact ⟨(by decide : 8 * (64 + 64) < 2 ^ 64), by decide, by decide⟩
  | md5 => exact ⟨trivial, by decide, by decide⟩
  | sha224 => exact ⟨(by decide : 8 * (64 + 64) < 2 ^ 64), by decide, by decide⟩
  | sha256 => exact ⟨(by decide : 8 * (64 + 64) < 2 ^ 64), by decide, by decide⟩
  | sha384 => exact ⟨(by decide : 8 * (128 + 128) < 2 ^ 128), by decide, by decide⟩
  | sha512 => exact ⟨(by decide : 8 * (128 + 128) < 2 ^ 128), by decide, by decide⟩

/-- Every hash serves the keyed hash. -/
theorem serves (h : HmacHash) (compress : h.Compression) :
    ∃ Fed Stored, Serves (h.plugin compress) (h.counted compress) h.Within h.keep Fed Stored := by
  cases h with
  | md2 => exact ⟨_, _, CMD2Impl.serves compress⟩
  | md4 =>
      exact ⟨_, _, HashImpl.serves trivial (fun n _ => HashImpl.lawful_md4 _)
        (fun _ _ _ _ => trivial) (by decide) trivial⟩
  | hash a =>
      obtain ⟨houter, hsize, -⟩ := hash_within a
      exact ⟨_, _, HashImpl.serves a.within_zero (fun _ => a.lawful)
        (fun m n hmn => within_le (hash a) hmn) hsize houter⟩

theorem plugin_blockSize (h : HmacHash) (compress : h.Compression) :
    (h.plugin compress).blockSize = h.blockSize := by
  cases h <;> rfl

theorem blockSize_le (h : HmacHash) : h.blockSize ≤ 128 := by
  cases h with
  | md2 => decide
  | md4 => decide
  | hash a => exact (hash_within a).2.2

/-- A code as it is computed is the one that is asked for. -/
theorem hmac_counted (h : HmacHash) (compress : h.Compression) {key msg : Bytes}
    (hkey : key.length > h.blockSize → h.Counted key.length)
    (hmsg : h.Counted (h.blockSize + msg.length)) :
    hmac (h.counted compress) h.blockSize key msg =
      hmac (h.reference compress) h.blockSize key msg := by
  obtain ⟨Fed, Stored, hserves⟩ := h.serves compress
  have hsize := h.blockSize_le
  have hkeys : hmacKey (h.counted compress) h.blockSize key =
      hmacKey (h.reference compress) h.blockSize key := by
    unfold hmacKey
    by_cases hlong : key.length > h.blockSize
    · simp only [if_pos hlong]
      rw [h.counted_eq_reference compress (hkey hlong)]
    · simp only [if_neg hlong]
  have hlen : (hmacKey (h.reference compress) h.blockSize key).length = h.blockSize := by
    rw [← hkeys, ← h.plugin_blockSize compress]
    exact CHMacImpl.length_hmacKey hserves key
  have hinner : h.counted compress
      (xorMagic 0x36 (hmacKey (h.reference compress) h.blockSize key) ++ msg) = _ :=
    h.counted_eq_reference compress (by
      rw [length_append, CHMacImpl.length_xorMagic, hlen]
      exact hmsg)
  unfold hmac
  rw [hkeys, hinner]
  apply h.counted_eq_reference
  intro _
  -- the outer hash is of a pad and a digest
  have hdigest := hserves.digest_length
    (xorMagic 0x36 (hmacKey (h.reference compress) h.blockSize key) ++ msg)
  rw [h.plugin_blockSize, hinner] at hdigest
  rw [length_append, CHMacImpl.length_xorMagic, hlen]
  omega

/-- What is kept behind a call that meets the condition is all there is. -/
theorem leaves_of_meets (h : HmacHash) {d : HmacData} {call : HmacCall} (hmeets : h.Meets d call) :
    call.leaves h.keep d = call.leaves id d := by
  cases call with
  | update aMessage => rfl
  | hash aMessage =>
      cases h with
      | md2 =>
        show HmacData.mk d.key (CMD2Impl.wholeBlocks d.msg ++ aMessage) = _
        rw [CMD2Impl.wholeBlocks_of_dvd (hmeets.1 rfl)]
        rfl
      | md4 => rfl
      | hash a => rfl
  | final aMessage => rfl
  | reset => rfl
  | setKeyL aKey => rfl

/-- The lengths of the data that the codes of a run are of are counted right. -/
theorem counted_of_met (h : HmacHash) {d : HmacData}
    (hkey : d.key.length > h.blockSize → h.Counted d.key.length) {calls : List HmacCall}
    (hmet : HmacCall.Along h.Meets id d calls) : ∀ c ∈ HmacCall.codes id d calls,
      (c.key.length > h.blockSize → h.Counted c.key.length) ∧
        h.Counted (h.blockSize + c.msg.length) := by
  induction calls generalizing d with
  | nil =>
      intro c hc
      exact absurd hc not_mem_nil
  | cons call calls ih =>
      intro c hc
      obtain ⟨hcall, hcalls⟩ := hmet
      rcases mem_append.mp hc with hnow | hlater
      · cases call with
        | update aMessage => exact absurd hnow not_mem_nil
        | hash aMessage =>
          rw [mem_singleton.mp hnow]
          exact ⟨hkey, hcall.2⟩
        | final aMessage =>
          rw [mem_singleton.mp hnow]
          exact ⟨hkey, hcall⟩
        | reset => exact absurd hnow not_mem_nil
        | setKeyL aKey => exact absurd hnow not_mem_nil
      · have hnext : (call.leaves id d).key.length > h.blockSize →
            h.Counted (call.leaves id d).key.length := by
          cases call with
          | setKeyL aKey => exact hcall
          | update aMessage => exact hkey
          | hash aMessage => exact hkey
          | final aMessage => exact hkey
          | reset => exact hkey
        exact ih hnext hcalls c hlater

/-- The calls on a new keyed hash. -/
def run (h : HmacHash) (compress : h.Compression) (iDigest : (h.plugin compress).Object)
    (aKey : Bytes) (calls : List HmacCall) :
    Leaving (CHMacImpl (h.plugin compress) × List Bytes) := do
  let o ← CHMacImpl.newL iDigest aKey
  o.callsL calls

/-- A run returns the codes of what is kept. -/
theorem run_kept (h : HmacHash) (compress : h.Compression)
    (iDigest : (h.plugin compress).Object) {aKey : Bytes} {calls : List HmacCall}
    (hkey : h.Within aKey.length)
    (htakes : HmacCall.Along (fun d call => call.Takes h.Within h.blockSize d) h.keep
      ⟨aKey, []⟩ calls) :
    ∃ o, h.run compress iDigest aKey calls = .ok (o, (HmacCall.codes h.keep ⟨aKey, []⟩ calls).map
      fun d => hmac (h.counted compress) h.blockSize d.key d.msg) := by
  obtain ⟨Fed, Stored, hserves⟩ := h.serves compress
  obtain ⟨o, hnew, ho⟩ := CHMacImpl.keyed_initialise hserves ⟨iDigest, [], [], [], []⟩ hkey
  rw [← h.plugin_blockSize compress] at htakes ⊢
  obtain ⟨next, hcalls⟩ := ho.callsL hserves htakes
  refine ⟨next, ?_⟩
  unfold run CHMacImpl.newL
  rw [hnew]
  exact hcalls

/-- **The codes of a run.**  In every run of calls that meet the condition, each is the keyed
hash of all that has been fed since the last reset. -/
theorem codes_of_met (h : HmacHash) (compress : h.Compression)
    (iDigest : (h.plugin compress).Object) (aKey : Bytes) (calls : List HmacCall)
    (hkey : h.Within aKey.length)
    (htakes : HmacCall.Along (fun d call => call.Takes h.Within h.blockSize d) id
      ⟨aKey, []⟩ calls)
    (hmet : HmacCall.Along h.Meets id ⟨[], []⟩ (.setKeyL aKey :: calls)) :
    ∃ o, h.run compress iDigest aKey calls = .ok (o, (HmacCall.codes id ⟨aKey, []⟩ calls).map
      fun d => hmac (h.reference compress) h.blockSize d.key d.msg) := by
  obtain ⟨hmeetsKey, hmeets⟩ := hmet
  have hsame : HmacCall.Along (fun d call => call.leaves h.keep d = call.leaves id d) id
      ⟨aKey, []⟩ calls := HmacCall.Along.mono (fun _ _ => h.leaves_of_meets) hmeets
  obtain ⟨o, hrun⟩ := h.run_kept compress iDigest hkey (HmacCall.along_congr hsame htakes)
  refine ⟨o, ?_⟩
  rw [hrun, HmacCall.codes_congr hsame]
  have hcodes : ∀ c ∈ HmacCall.codes id ⟨aKey, []⟩ calls,
      hmac (h.counted compress) h.blockSize c.key c.msg =
        hmac (h.reference compress) h.blockSize c.key c.msg := by
    intro c hc
    obtain ⟨hckey, hcmsg⟩ := @counted_of_met h ⟨aKey, []⟩ hmeetsKey _ hmeets c hc
    exact h.hmac_counted compress hckey hcmsg
  rw [map_congr_left hcodes]

/-- A compression that adds up the blocks. -/
def addBlocks : CMD2Impl.Compression := fun s block =>
  (s.1, (range 16).map fun i => s.2.getD i 0 + (block.getD i 0).toNat)

/-- A code in the middle of a message, where MD2 is between blocks. -/
def midwayCalls : List HmacCall :=
  [.update (replicate 16 1), .hash [2], .update [3], .final []]

theorem codes_of_met_midway :
    (HmacCall.codes id ⟨[7], []⟩ midwayCalls =
      [⟨[7], replicate 16 1 ++ [2]⟩, ⟨[7], replicate 16 1 ++ [2, 3]⟩]) ∧
    ∃ o, md2.run addBlocks CMD2Impl.newL [7] midwayCalls =
      .ok (o, (HmacCall.codes id ⟨[7], []⟩ midwayCalls).map
        fun d => hmac (md2.reference addBlocks) md2.blockSize d.key d.msg) :=
  ⟨rfl, codes_of_met md2 addBlocks CMD2Impl.newL [7] midwayCalls trivial
    ⟨trivial, trivial, trivial, trivial, trivial⟩
    ⟨fun _ h => h.elim, trivial, ⟨fun _ => by decide, fun h => h.elim⟩, trivial,
      fun h => h.elim, trivial⟩⟩

/-- One octet, its code, and the code again. -/
def againCalls : List HmacCall := [.update [1], .hash [], .final []]

/-- With MD2 the second code is that of nothing. -/
theorem not_codes_md2 :
    HmacCall.Along (fun d call => call.Takes md2.Within md2.blockSize d) id ⟨[], []⟩ againCalls ∧
    ¬ ∃ o, md2.run addBlocks CMD2Impl.newL [] againCalls =
      .ok (o, (HmacCall.codes id ⟨[], []⟩ againCalls).map
        fun d => hmac (md2.reference addBlocks) md2.blockSize d.key d.msg) := by
  refine ⟨⟨trivial, trivial, trivial, trivial⟩, ?_⟩
  rintro ⟨o, hclaimed⟩
  obtain ⟨o', hrun⟩ : ∃ o', md2.run addBlocks CMD2Impl.newL [] againCalls = .ok (o', _) :=
    md2.run_kept addBlocks CMD2Impl.newL trivial ⟨trivial, trivial, trivial, trivial⟩
  rw [hrun] at hclaimed
  have hcodes := (Prod.mk.inj (Except.ok.inj hclaimed)).2
  have hlast : hmac (CMD2Impl.digest addBlocks) 16 [] [] =
      hmac (CMD2Impl.digest addBlocks) 16 [] [1] := (List.cons.inj (List.cons.inj hcodes).2).1
  exact absurd hlast (by decide)

end HmacHash

end OsSecurity
