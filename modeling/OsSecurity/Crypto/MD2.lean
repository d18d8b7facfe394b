/-
The hash of `md2impl.cpp`.

It takes blocks of sixteen octets and keeps two values, a checksum and a state; `Block` goes
from one pair of them to the next and is a parameter here.  The padding is as many octets as
are missing, each of them that number, and the checksum is compressed behind it.

`Fed` says what the fields are after a message.  `StoreState` keeps all of them but `iNum`, so
what `RestoreState` brings back behind a `Final` is the whole blocks of the message and not
the octets that were waiting for a block (`Fed.restore`).
-/
import OsSecurity.E32
import OsSecurity.Library.MerkleDamgard

namespace OsSecurity

open Blockwise List MerkleDamgard

def KMD2BlockSize : Nat := 16

structure CMD2Impl where
  /-- the octets in `iData` -/
  iNum : Nat
  iData : Bytes
  iChecksum : List Nat
  iState : List Nat
  iDataTemp : Bytes
  iChecksumTemp : List Nat
  iStateTemp : List Nat

namespace CMD2Impl

/-- `Block`, on the checksum and the state. -/
abbrev Compression := List Nat × List Nat → Bytes → List Nat × List Nat

/-- `Mem::Copy` to the octets of `target` from an index on. -/
def copyTo (target : Bytes) (index : Nat) (source : Bytes) : Bytes :=
  target.take index ++ source ++ target.drop (index + source.length)

/-- The low octets of the words of a checksum or a state. -/
def lowOctets (words : List Nat) : Bytes :=
  (range KMD2BlockSize).map fun i => UInt8.ofNat (words.getD i 0 &&& 0xff)

def reset (o : CMD2Impl) : CMD2Impl :=
  { o with
    iData := replicate KMD2BlockSize 0
    iChecksum := replicate KMD2BlockSize 0
    iState := replicate KMD2BlockSize 0
    iNum := 0 }

/-- `NewL`: the fields of a `CBase` are zero. -/
def newL : CMD2Impl where
  iNum := 0
  iData := replicate KMD2BlockSize 0
  iChecksum := replicate KMD2BlockSize 0
  iState := replicate KMD2BlockSize 0
  iDataTemp := replicate KMD2BlockSize 0
  iChecksumTemp := replicate KMD2BlockSize 0
  iStateTemp := replicate KMD2BlockSize 0

variable (compress : Compression)

def block (o : CMD2Impl) (aData : Bytes) : CMD2Impl :=
  { o with
    iChecksum := (compress (o.iChecksum, o.iState) aData).1
    iState := (compress (o.iChecksum, o.iState) aData).2 }

/-- The loop over whole blocks, and what it leaves of the input. -/
def blocks (o : CMD2Impl) (aData : Bytes) : CMD2Impl × Bytes :=
  if _ : KMD2BlockSize ≤ aData.length then
    blocks (o.block compress (aData.take KMD2BlockSize)) (aData.drop KMD2BlockSize)
  else (o, aData)
termination_by aData.length
decreasing_by
  rw [length_drop]
  unfold KMD2BlockSize at *
  omega

/-- The blocks of the input, and the start of the next one. -/
def updateBlocks (o : CMD2Impl) (aData : Bytes) : CMD2Impl :=
  let (o, aData) := o.blocks compress aData
  { o with iData := copyTo o.iData 0 aData, iNum := aData.length }

/-- `DoUpdate`, which is `Update` -/
def update (o : CMD2Impl) (aData : Bytes) : CMD2Impl :=
  if o.iNum ≠ 0 then
    if o.iNum + aData.length ≥ KMD2BlockSize then
      let temp := KMD2BlockSize - o.iNum
      let iData := copyTo o.iData o.iNum (aData.take temp)
      updateBlocks compress { (block compress { o with iData := iData } iData) with iNum := 0 }
        (aData.drop temp)
    else { o with iData := copyTo o.iData o.iNum aData, iNum := o.iNum + aData.length }
  else o.updateBlocks compress aData

/-- `DoFinal`, and `iHash` behind it -/
def doFinal (o : CMD2Impl) : CMD2Impl × Bytes :=
  let pad := KMD2BlockSize - o.iNum
  let iData := copyTo o.iData o.iNum (replicate pad (UInt8.ofNat pad))
  let o := block compress { o with iData := iData } iData
  let o := { o with iData := lowOctets o.iChecksum }
  let o := o.block compress o.iData
  (o, lowOctets o.iState)

def storeState (o : CMD2Impl) : CMD2Impl :=
  { o with iDataTemp := o.iData, iChecksumTemp := o.iChecksum, iStateTemp := o.iState }

def restoreState (o : CMD2Impl) : CMD2Impl :=
  { o with iData := o.iDataTemp, iChecksum := o.iChecksumTemp, iState := o.iStateTemp }

def hash (o : CMD2Impl) (aMessage : Bytes) : CMD2Impl × Bytes :=
  let (o, iHash) := (o.update compress aMessage).storeState.doFinal compress
  (o.restoreState, iHash)

def final (o : CMD2Impl) (aMessage : Bytes) : CMD2Impl × Bytes :=
  let o := if aMessage ≠ [] then o.update compress aMessage else o
  let (o, iHash) := o.doFinal compress
  (o.reset, iHash)

/-! ### What the fields are after a message -/

/-- The padding of a message of this length. -/
def padding (length : Nat) : Bytes :=
  replicate (KMD2BlockSize - length % KMD2BlockSize)
    (UInt8.ofNat (KMD2BlockSize - length % KMD2BlockSize))

/-- The checksum and the state after the whole blocks of a message. -/
def chain (msg : Bytes) : List Nat × List Nat :=
  MerkleDamgard.chain compress KMD2BlockSize
    (replicate KMD2BlockSize 0, replicate KMD2BlockSize 0) msg

/-- The digest of a message: its blocks and the padding, and the checksum as one more block. -/
def digest (msg : Bytes) : Bytes :=
  let last := chain compress (msg ++ padding msg.length)
  lowOctets (compress last (lowOctets last.1)).2

/-- The whole blocks of a message. -/
def wholeBlocks (msg : Bytes) : Bytes := msg.take (msg.length / KMD2BlockSize * KMD2BlockSize)

/-- The hash has been given `msg`. -/
structure Fed (msg : Bytes) (o : CMD2Impl) : Prop where
  chained : (o.iChecksum, o.iState) = chain compress msg
  num : o.iNum = (carry KMD2BlockSize msg).length
  size : o.iData.length = KMD2BlockSize
  data : o.iData.take o.iNum = carry KMD2BlockSize msg

/-- The copies are of a hash that had been given `msg`. -/
structure Stored (msg : Bytes) (o : CMD2Impl) : Prop where
  chained : (o.iChecksumTemp, o.iStateTemp) = chain compress msg
  size : o.iDataTemp.length = KMD2BlockSize

/-- The copies stay as they are. -/
def SameCopies (o next : CMD2Impl) : Prop :=
  next.iDataTemp = o.iDataTemp ∧ next.iChecksumTemp = o.iChecksumTemp ∧
    next.iStateTemp = o.iStateTemp

variable {compress} {msg : Bytes} {o next : CMD2Impl}

theorem SameCopies.stored (h : SameCopies o next) (hs : Stored compress msg o) :
    Stored compress msg next := by
  obtain ⟨hdata, hchecksum, hstate⟩ := h
  refine ⟨?_, ?_⟩
  · rw [hchecksum, hstate]
    exact hs.chained
  · rw [hdata]
    exact hs.size

theorem copyTo_length {target source : Bytes} {index : Nat}
    (h : index + source.length ≤ target.length) :
    (copyTo target index source).length = target.length := by
  simp only [copyTo, length_append, length_take, length_drop]
  omega

/-- What was in front and what has been copied are the front now. -/
theorem copyTo_take {target source : Bytes} {index : Nat} (h : index ≤ target.length) :
    (copyTo target index source).take (index + source.length) = target.take index ++ source := by
  apply take_left'
  rw [length_append, length_take, Nat.min_eq_left h]

theorem lowOctets_length (words : List Nat) : (lowOctets words).length = KMD2BlockSize := by
  simp [lowOctets]

/-- The loop is the run over the whole blocks. -/
theorem blocks_eq (aData : Bytes) (o : CMD2Impl) :
    o.blocks compress aData =
      ({ o with
        iChecksum := (MerkleDamgard.chain compress KMD2BlockSize
          (o.iChecksum, o.iState) aData).1
        iState := (MerkleDamgard.chain compress KMD2BlockSize
          (o.iChecksum, o.iState) aData).2 }, carry KMD2BlockSize aData) := by
  induction hn : aData.length using Nat.strong_induction_on generalizing aData o with
  | _ n ih =>
      unfold blocks
      by_cases hwhole : KMD2BlockSize ≤ aData.length
      · have hsize : 0 < KMD2BlockSize := by decide
        have hdrop : (aData.drop KMD2BlockSize).length = aData.length - KMD2BlockSize :=
          length_drop
        have hcount : aData.length / KMD2BlockSize =
            (aData.drop KMD2BlockSize).length / KMD2BlockSize + 1 := by
          rw [hdrop, Nat.div_eq_sub_div hsize hwhole]
        have hcarry : carry KMD2BlockSize (aData.drop KMD2BlockSize) =
            carry KMD2BlockSize aData := by
          unfold carry
          rw [drop_drop, hcount, Nat.succ_mul, Nat.add_comm]
        have hchain : MerkleDamgard.chain compress KMD2BlockSize (o.iChecksum, o.iState) aData =
            MerkleDamgard.chain compress KMD2BlockSize
              (compress (o.iChecksum, o.iState) (aData.take KMD2BlockSize))
              (aData.drop KMD2BlockSize) := by
          unfold MerkleDamgard.chain Blockwise.done
          rw [hcount, run_succ]
          rfl
        rw [dif_pos hwhole, ih _ (by omega) _ _ rfl, hcarry, hchain]
        rfl
      · have hzero : aData.length / KMD2BlockSize = 0 := Nat.div_eq_of_lt (by omega)
        rw [dif_neg hwhole]
        unfold MerkleDamgard.chain Blockwise.done carry
        rw [hzero]
        simp

/-- Blocks behind a message of whole blocks. -/
theorem updateBlocks_fed {aData : Bytes} (hchained : (o.iChecksum, o.iState) = chain compress msg)
    (hwhole : carry KMD2BlockSize msg = []) (hsize : o.iData.length = KMD2BlockSize) :
    Fed compress (msg ++ aData) (o.updateBlocks compress aData) ∧
      SameCopies o (o.updateBlocks compress aData) := by
  have hB : 0 < KMD2BlockSize := by decide
  have hcarry := carry_append hB msg aData
  rw [hwhole, nil_append, length_nil, Nat.zero_add] at hcarry
  have hrest : carry KMD2BlockSize (msg ++ aData) =
      carry KMD2BlockSize aData := hcarry
  have hlt := carry_length_lt hB aData
  have hchain : chain compress (msg ++ aData) =
      MerkleDamgard.chain compress KMD2BlockSize (o.iChecksum, o.iState) aData := by
    unfold chain
    rw [chain_append hB, hwhole, length_nil, Nat.zero_add, nil_append, hchained]
    rfl
  unfold updateBlocks
  rw [blocks_eq]
  refine ⟨⟨hchain.symm, ?_, ?_, ?_⟩, rfl, rfl, rfl⟩
  · rw [hrest]
  · show (copyTo o.iData 0 _).length = _
    rw [copyTo_length (by omega), hsize]
  · have htake : (copyTo o.iData 0 (carry KMD2BlockSize aData)).take (0 + _) = _ :=
      copyTo_take (Nat.zero_le o.iData.length)
    rw [Nat.zero_add, take_zero, nil_append] at htake
    rw [hrest]
    exact htake

/-- **`Update`.** -/
theorem Fed.update (h : Fed compress msg o) (aData : Bytes) :
    Fed compress (msg ++ aData) (o.update compress aData) ∧
      SameCopies o (o.update compress aData) := by
  have hB : 0 < KMD2BlockSize := by decide
  have hlt := carry_length_lt hB msg
  have hnum := h.num
  have hsize := h.size
  have hcarry := carry_append hB msg aData
  have hchain : chain compress (msg ++ aData) = _ := chain_append hB _ msg aData
  unfold CMD2Impl.update
  by_cases hopen : o.iNum ≠ 0
  · rw [if_pos hopen]
    by_cases hfull : o.iNum + aData.length ≥ KMD2BlockSize
    · -- the open block is filled, and the rest goes on behind whole blocks
      rw [if_pos hfull]
      have htemp : (aData.take (KMD2BlockSize - o.iNum)).length = KMD2BlockSize - o.iNum := by
        rw [length_take]
        omega
      have hall : o.iNum + (aData.take (KMD2BlockSize - o.iNum)).length = KMD2BlockSize := by
        omega
      have hlen : (copyTo o.iData o.iNum (aData.take (KMD2BlockSize - o.iNum))).length =
          KMD2BlockSize := by
        rw [copyTo_length (by omega), hsize]
      have hblock : copyTo o.iData o.iNum (aData.take (KMD2BlockSize - o.iNum)) =
          carry KMD2BlockSize msg ++ aData.take (KMD2BlockSize - o.iNum) := by
        have htake : (copyTo o.iData o.iNum (aData.take (KMD2BlockSize - o.iNum))).take
            (o.iNum + _) = _ := copyTo_take (by omega)
        rw [hall, take_of_length_le (le_of_eq hlen), h.data] at htake
        exact htake
      have hwhole : carry KMD2BlockSize
          (msg ++ aData.take (KMD2BlockSize - o.iNum)) = [] := by
        rw [carry_append hB, ← hnum, hall, Nat.div_self hB, Nat.one_mul, ← hblock]
        exact drop_of_length_le (le_of_eq hlen)
      have hchained : chain compress (msg ++ aData.take (KMD2BlockSize - o.iNum)) =
          compress (chain compress msg)
            (copyTo o.iData o.iNum (aData.take (KMD2BlockSize - o.iNum))) := by
        unfold chain
        rw [chain_append hB, ← hnum, hall, Nat.div_self hB, hblock,
          run_one (by rw [← hblock]; exact hlen)]
      have hsplit : msg ++ aData = msg ++ aData.take (KMD2BlockSize - o.iNum) ++
          aData.drop (KMD2BlockSize - o.iNum) := by
        rw [List.append_assoc, take_append_drop]
      rw [hsplit]
      apply updateBlocks_fed _ hwhole hlen
      rw [hchained, ← h.chained]
      rfl
    · -- the open block stays open
      have hzero : (o.iNum + aData.length) / KMD2BlockSize = 0 := Nat.div_eq_of_lt (by omega)
      rw [← hnum, hzero, Nat.zero_mul, drop_zero] at hcarry
      rw [← hnum, hzero] at hchain
      rw [if_neg hfull]
      refine ⟨⟨?_, ?_, ?_, ?_⟩, rfl, rfl, rfl⟩
      · show (o.iChecksum, o.iState) = chain compress (msg ++ aData)
        rw [h.chained]
        exact hchain.symm
      · rw [hcarry, length_append, ← hnum]
      · show (copyTo o.iData o.iNum aData).length = _
        rw [copyTo_length (by omega), hsize]
      · show (copyTo o.iData o.iNum aData).take (o.iNum + aData.length) = _
        rw [copyTo_take (by omega), h.data, hcarry]
  · have hempty : carry KMD2BlockSize msg = [] := by
      apply eq_nil_of_length_eq_zero
      omega
    rw [if_neg hopen]
    exact updateBlocks_fed h.chained hempty hsize

/-- **`DoFinal`.** -/
theorem Fed.doFinal (h : Fed compress msg o) :
    (o.doFinal compress).2 = digest compress msg ∧ SameCopies o (o.doFinal compress).1 := by
  have hB : 0 < KMD2BlockSize := by decide
  have hlt := carry_length_lt hB msg
  have hnum := h.num
  have hsize := h.size
  have hmod : o.iNum = msg.length % KMD2BlockSize := by
    rw [hnum, carry_length]
  have hpad : (padding msg.length).length = KMD2BlockSize - o.iNum := by
    unfold padding
    rw [length_replicate, hmod]
  have hall : o.iNum + (padding msg.length).length = KMD2BlockSize := by omega
  have hlen : (copyTo o.iData o.iNum (padding msg.length)).length = KMD2BlockSize := by
    rw [copyTo_length (by omega), hsize]
  have hblock : copyTo o.iData o.iNum (padding msg.length) =
      carry KMD2BlockSize msg ++ padding msg.length := by
    have htake : (copyTo o.iData o.iNum (padding msg.length)).take (o.iNum + _) = _ :=
      copyTo_take (by omega)
    rw [hall, take_of_length_le (le_of_eq hlen), h.data] at htake
    exact htake
  have hchain : chain compress (msg ++ padding msg.length) =
      compress (o.iChecksum, o.iState) (copyTo o.iData o.iNum (padding msg.length)) := by
    rw [h.chained]
    unfold chain
    rw [chain_append hB, ← hnum, hall, Nat.div_self hB, hblock,
      run_one (by rw [← hblock]; exact hlen)]
  have hsame : replicate (KMD2BlockSize - o.iNum) (UInt8.ofNat (KMD2BlockSize - o.iNum)) =
      padding msg.length := by
    unfold padding
    rw [hmod]
  refine ⟨?_, rfl, rfl, rfl⟩
  unfold digest
  rw [hchain]
  simp only [CMD2Impl.doFinal, hsame]
  rfl

theorem Fed.reset (o : CMD2Impl) : Fed compress [] o.reset := by
  refine ⟨?_, ?_, ?_, ?_⟩
  · simp [CMD2Impl.reset, chain, MerkleDamgard.chain, Blockwise.done]
  · simp [CMD2Impl.reset]
  · simp [CMD2Impl.reset]
  · simp [CMD2Impl.reset]

/-- **`Hash`.**  It brings the state back, as `DoFinal` leaves `iNum` alone. -/
theorem Fed.hash (h : Fed compress msg o) (aMessage : Bytes) :
    (o.hash compress aMessage).2 = digest compress (msg ++ aMessage) ∧
      Fed compress (msg ++ aMessage) (o.hash compress aMessage).1 := by
  obtain ⟨hfed, -⟩ := h.update aMessage
  have hstored : Fed compress (msg ++ aMessage) (o.update compress aMessage).storeState :=
    ⟨hfed.chained, hfed.num, hfed.size, hfed.data⟩
  exact ⟨hstored.doFinal.1, hfed.chained, hfed.num, hfed.size, hfed.data⟩

/-- **`Final`.** -/
theorem Fed.final (h : Fed compress msg o) (aMessage : Bytes) :
    (o.final compress aMessage).2 = digest compress (msg ++ aMessage) ∧
      Fed compress [] (o.final compress aMessage).1 ∧
        SameCopies o (o.final compress aMessage).1 := by
  unfold CMD2Impl.final
  by_cases hnil : aMessage = []
  · obtain ⟨hdigest, hcopies⟩ := h.doFinal
    rw [if_neg (fun hne => hne hnil), hnil, append_nil]
    exact ⟨hdigest, Fed.reset _, hcopies⟩
  · obtain ⟨hfed, hsame⟩ := h.update aMessage
    obtain ⟨hdigest, hcopies⟩ := hfed.doFinal
    rw [if_pos hnil]
    exact ⟨hdigest, Fed.reset _, hcopies.1.trans hsame.1, hcopies.2.1.trans hsame.2.1,
      hcopies.2.2.trans hsame.2.2⟩

theorem Fed.store (h : Fed compress msg o) :
    Fed compress msg o.storeState ∧ Stored compress msg o.storeState :=
  ⟨⟨h.chained, h.num, h.size, h.data⟩, h.chained, h.size⟩

theorem wholeBlocks_length (msg : Bytes) :
    (wholeBlocks msg).length = msg.length / KMD2BlockSize * KMD2BlockSize := by
  unfold wholeBlocks
  rw [length_take, Nat.min_eq_left (Nat.div_mul_le_self _ _)]

theorem wholeBlocks_of_dvd (h : KMD2BlockSize ∣ msg.length) : wholeBlocks msg = msg := by
  unfold wholeBlocks
  rw [Nat.div_mul_cancel h, take_length]

/-- **`RestoreState`** behind a `Final`, which has set `iNum` to zero. -/
theorem Fed.restore (h : Fed compress [] o) (hs : Stored compress msg o) :
    Fed compress (wholeBlocks msg) o.restoreState := by
  have hB : 0 < KMD2BlockSize := by decide
  have hnum : o.iNum = 0 := h.num.trans (by simp)
  have hempty : carry KMD2BlockSize (wholeBlocks msg) = [] := by
    apply carry_eq_nil
    rw [wholeBlocks_length]
    exact Nat.dvd_mul_left _ _
  have hchain : chain compress (wholeBlocks msg) = chain compress msg := by
    have hdiv : (wholeBlocks msg).length / KMD2BlockSize = msg.length / KMD2BlockSize := by
      rw [wholeBlocks_length, Nat.mul_div_cancel _ hB]
    have hsplit : wholeBlocks msg ++ carry KMD2BlockSize msg = msg :=
      take_append_drop _ _
    unfold chain MerkleDamgard.chain Blockwise.done
    generalize replicate KMD2BlockSize 0 = zeros
    have hrun : Blockwise.run (MerkleDamgard.step compress) KMD2BlockSize _ (zeros, zeros)
        (wholeBlocks msg ++ carry KMD2BlockSize msg) = _ :=
      Blockwise.run_append (le_of_eq (wholeBlocks_length msg).symm) (zeros, zeros) _
    rw [hsplit] at hrun
    rw [hdiv, hrun]
  refine ⟨?_, ?_, hs.size, ?_⟩
  · rw [hchain]
    exact hs.chained
  · rw [hempty]
    exact hnum
  · rw [hempty]
    show take o.iNum _ = _
    rw [hnum, take_zero]

end CMD2Impl

end OsSecurity
