/-
`filestream.cpp`: a file, read from a mark.

A read past the end returns what there is, and leaves the file in a state in which every later
read or seek ends the program.  Nothing but `RReadStream` looks at how much was read.
-/
import OsSecurity.Streams
import OsSecurity.Certapp.MemStreamBuf

namespace OsSecurity

open List

namespace Certapp

structure FileStreamBuf where
  iFile : Bytes
  mark : Nat
  /-- `iFile.fail()` -/
  fail : Bool

namespace FileStreamBuf

def opened (file : Bytes) : FileStreamBuf where
  iFile := file
  mark := 0
  fail := false

/-- What is behind the mark. -/
def rest (s : FileStreamBuf) : Bytes := s.iFile.drop s.mark

def doReadL (aMaxLength : Nat) (s : FileStreamBuf) : Leaving (Bytes × FileStreamBuf) :=
  if s.fail then fatalError
  else
    let octets := s.rest.take aMaxLength
    .ok (octets, { s with
      mark := s.mark + octets.length
      fail := decide (octets.length < aMaxLength) })

/-- `SeekL` from the beginning. -/
def seekL (anOffset : Int) (s : FileStreamBuf) : Leaving FileStreamBuf :=
  if s.fail then fatalError
  else if anOffset < 0 then fatalError
  else .ok { s with mark := anOffset.toNat }

def tellL (s : FileStreamBuf) : Leaving Nat := if s.fail then fatalError else .ok s.mark

/-- What an `RReadStream` over the file reads: less than it asks for ends the program. -/
def get {α : Type} (read : RReadStream α) (s : FileStreamBuf) : Leaving (α × FileStreamBuf) :=
  if s.fail then fatalError
  else
    match read s.rest with
    | .ok (a, behind) => .ok (a, { s with mark := s.mark + (s.rest.length - behind.length) })
    | .error _ => fatalError

/-- The data of a `MemStreamBuf` with what is read behind it.  The octet is read into a variable
that nothing has set, and how much was read is not looked at. -/
def appendFromFile : Nat → FileStreamBuf → Bytes → Leaving (Bytes × FileStreamBuf)
  | 0, s, iData => .ok (iData, s)
  | aLength + 1, s, iData => do
    let (octets, s) ← s.doReadL 1
    match octets with
    | [] => .error .undefined
    | data :: _ => appendFromFile aLength s (iData ++ [data])

/-! ### What the operations do to a file that has not failed -/

variable {s : FileStreamBuf}

/-- The file with its mark elsewhere. -/
def atMark (file : Bytes) (mark : Nat) : FileStreamBuf where
  iFile := file
  mark := mark
  fail := false

variable {file : Bytes} {mark : Nat}

@[simp] theorem atMark_fail : (atMark file mark).fail = false := rfl

@[simp] theorem atMark_iFile : (atMark file mark).iFile = file := rfl

@[simp] theorem atMark_rest : (atMark file mark).rest = file.drop mark := rfl

theorem doReadL_at {n : Nat} (h : n ≤ (file.drop mark).length) :
    (atMark file mark).doReadL n = .ok ((file.drop mark).take n, atMark file (mark + n)) := by
  have hlength : ((file.drop mark).take n).length = n := length_take_of_le h
  unfold doReadL
  rw [if_neg (by simp)]
  simp only [atMark_rest, hlength, Nat.lt_irrefl, decide_false]
  rfl

/-- A read past the end gets what there is. -/
theorem doReadL_short {n : Nat} (h : (file.drop mark).length < n) :
    ∃ s : FileStreamBuf, (atMark file mark).doReadL n = .ok (file.drop mark, s) ∧
      s.fail = true := by
  have htake : (file.drop mark).take n = file.drop mark := take_of_length_le (by omega)
  have hread : (atMark file mark).doReadL n = .ok (file.drop mark, { atMark file mark with
      mark := mark + (file.drop mark).length
      fail := decide ((file.drop mark).length < n) }) := by
    unfold doReadL
    rw [if_neg (by simp)]
    simp only [atMark_rest, htake]
    rfl
  exact ⟨_, hread, decide_eq_true h⟩

theorem tellL_fail (h : s.fail = true) : s.tellL = fatalError := if_pos h

theorem seekL_at {anOffset : Int} (h : 0 ≤ anOffset) :
    (atMark file mark).seekL anOffset = .ok (atMark file anOffset.toNat) := by
  unfold seekL
  rw [if_neg (by simp), if_neg (by omega)]
  rfl

theorem seekL_neg {anOffset : Int} (h : anOffset < 0) :
    (atMark file mark).seekL anOffset = fatalError := by
  unfold seekL
  rw [if_neg (by simp), if_pos h]

theorem tellL_at : (atMark file mark).tellL = .ok mark := rfl

/-- What was written is read back from the mark that it is at. -/
theorem get_at {α : Type} {read : RReadStream α} {written : Bytes} {a : α}
    (hread : ReadsBack read written a) {behind : Bytes}
    (hwritten : file.drop mark = written ++ behind) :
    (atMark file mark).get read = .ok (a, atMark file (mark + written.length)) := by
  unfold get
  rw [if_neg (by simp)]
  simp only [atMark_rest, hwritten, hread behind, length_append, Nat.add_sub_cancel]
  rfl

theorem get_ok {α : Type} {read : RReadStream α} {r : α × FileStreamBuf}
    (h : (atMark file mark).get read = .ok r) :
    ∃ behind, read (file.drop mark) = .ok (r.1, behind) := by
  unfold get at h
  rw [if_neg (by simp), atMark_rest] at h
  cases hread : read (file.drop mark) with
  | ok p =>
      rw [hread] at h
      have hr := congrArg Prod.fst (Except.ok.inj h)
      exact ⟨p.2, by rw [← hr]⟩
  | error e =>
      rw [hread] at h
      exact absurd h (leave_ne_ok _ _)

/-- All that is asked for is there, and is appended. -/
theorem appendFromFile_at {n : Nat} (h : n ≤ (file.drop mark).length) (iData : Bytes) :
    appendFromFile n (atMark file mark) iData =
      .ok (iData ++ (file.drop mark).take n, atMark file (mark + n)) := by
  induction n generalizing mark iData with
  | zero =>
      rw [take_zero, append_nil]
      rfl
  | succ n ih =>
      have hdrop : file.drop (mark + 1) = (file.drop mark).tail := by
        rw [tail_drop]
      cases hrest : file.drop mark with
      | nil =>
        rw [hrest] at h
        exact absurd h (by simp)
      | cons data more =>
        rw [hrest] at h
        have hmore : file.drop (mark + 1) = more := by rw [hdrop, hrest, tail_cons]
        unfold appendFromFile
        rw [doReadL_at (by rw [hrest]; simp), hrest]
        show appendFromFile n (atMark file (mark + 1)) (iData ++ [data]) = _
        rw [ih (by rw [hmore]; simpa using h), hmore, take_succ_cons, List.append_assoc,
          Nat.add_assoc, Nat.add_comm 1 n]
        rfl

/-- What is asked for beyond the end is not had. -/
theorem appendFromFile_short {n : Nat} (h : (file.drop mark).length < n) (iData : Bytes)
    (r : Bytes × FileStreamBuf) : appendFromFile n (atMark file mark) iData ≠ .ok r := by
  induction n generalizing mark iData with
  | zero => exact absurd h (by omega)
  | succ n ih =>
      cases hrest : file.drop mark with
      | nil =>
        unfold appendFromFile doReadL
        rw [if_neg (by simp)]
        simp only [atMark_rest, hrest, take_nil, ok_bind]
        exact nofun
      | cons data more =>
        have hmore : file.drop (mark + 1) = more := by
          rw [← tail_drop, hrest, tail_cons]
        unfold appendFromFile
        rw [doReadL_at (by rw [hrest]; simp), hrest]
        show appendFromFile n (atMark file (mark + 1)) (iData ++ [data]) ≠ _
        exact ih (by
          rw [hrest] at h
          rw [hmore]
          simpa using h) _

/-- An append that ends has had all that it asked for. -/
theorem appendFromFile_ok {n : Nat} {iData : Bytes} {r : Bytes × FileStreamBuf}
    (h : appendFromFile n (atMark file mark) iData = .ok r) :
    n ≤ (file.drop mark).length ∧
      r = (iData ++ (file.drop mark).take n, atMark file (mark + n)) := by
  by_cases hlength : n ≤ (file.drop mark).length
  · rw [appendFromFile_at hlength, Except.ok.injEq] at h
    exact ⟨hlength, h.symm⟩
  · exact absurd h (appendFromFile_short (by omega) iData r)

end FileStreamBuf

end Certapp

end OsSecurity
