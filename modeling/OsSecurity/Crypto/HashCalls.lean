/-
Hashes used together, whatever order they are called in.

What a run of calls has to return is said by the messages alone: `fed` is what a call makes of
them, and `digested` the messages it returns digests of.  The hashes follow: each of them has
been `Fed` its message, a call keeps that (`AllFed.callL`), and so does a run
(`AllFed.callsL`), as long as no message is longer than the algorithm takes.
-/
import OsSecurity.Crypto.HashBuffer

namespace OsSecurity

open List

namespace HashCall

variable {impl : HashImpl}

/-- The messages after a call. -/
def fed (msgs : List Bytes) : HashCall impl → List Bytes
  | .update index aMessage => msgs.modify index (· ++ aMessage)
  | .hash index aMessage => msgs.modify index (· ++ aMessage)
  | .copyL index _ => msgs ++ msgs[index]?.toList
  | .final index _ => msgs.set index []

/-- The messages as long as they become in a call. -/
def lengthened (msgs : List Bytes) : HashCall impl → List Bytes
  | .update index aMessage => (msgs[index]?.map (· ++ aMessage)).toList
  | .hash index aMessage => (msgs[index]?.map (· ++ aMessage)).toList
  | .copyL _ _ => []
  | .final index aMessage => (msgs[index]?.map (· ++ aMessage)).toList

/-- The messages that a call returns digests of. -/
def digested (msgs : List Bytes) : HashCall impl → List Bytes
  | .update _ _ => []
  | .hash index aMessage => (msgs[index]?.map (· ++ aMessage)).toList
  | .copyL _ _ => []
  | .final index aMessage => (msgs[index]?.map (· ++ aMessage)).toList

/-- What `what` says of the calls, each after those before it. -/
def along (what : List Bytes → HashCall impl → List Bytes) (msgs : List Bytes) :
    List (HashCall impl) → List Bytes
  | [] => []
  | call :: calls => what msgs call ++ along what (call.fed msgs) calls

end HashCall

namespace HashImpl

/-- Every hash has been given its message. -/
structure AllFed (impl : HashImpl) (order : Order) (count : Nat → impl.Length)
    (compress : List Nat → List Nat → List Nat) (msgs : List Bytes)
    (hashes : List (HashObject impl)) : Prop where
  length : hashes.length = msgs.length
  fed : ∀ (index : Nat) (msg : Bytes) (o : HashObject impl), msgs[index]? = some msg →
    hashes[index]? = some o → impl.Fed order count compress msg o.fields

variable {impl : HashImpl} {order : Order} {count : Nat → impl.Length}
  {compress : List Nat → List Nat → List Nat} {msgs : List Bytes}
  {hashes : List (HashObject impl)}

section

variable (hall : impl.AllFed order count compress msgs hashes)
include hall

/-- The hash there is for a message. -/
theorem AllFed.hash {index : Nat} {msg : Bytes} (hmsg : msgs[index]? = some msg) :
    ∃ o, hashes[index]? = some o ∧ impl.Fed order count compress msg o.fields := by
  have hlt : index < hashes.length := by
    rw [hall.length]
    exact (List.getElem?_eq_some_iff.mp hmsg).1
  exact ⟨hashes[index], getElem?_eq_getElem hlt,
    hall.fed index msg _ hmsg (getElem?_eq_getElem hlt)⟩

theorem AllFed.none {index : Nat} (hmsg : msgs[index]? = Option.none) :
    hashes[index]? = Option.none := by
  rw [List.getElem?_eq_none_iff] at hmsg ⊢
  rw [hall.length]
  exact hmsg

/-- One hash and its message are changed. -/
theorem AllFed.set (index : Nat) {msg : Bytes} {o : HashObject impl}
    (ho : impl.Fed order count compress msg o.fields) :
    impl.AllFed order count compress (msgs.set index msg) (hashes.set index o) := by
  refine ⟨?_, ?_⟩
  · rw [length_set, length_set, hall.length]
  · intro i msg' o' hmsg' ho'
    rw [getElem?_set] at hmsg' ho'
    by_cases hi : index = i
    · rw [if_pos hi] at hmsg' ho'
      by_cases hlt : index < msgs.length
      · rw [if_pos hlt] at hmsg'
        rw [if_pos (by rw [hall.length]; exact hlt)] at ho'
        cases hmsg'
        cases ho'
        exact ho
      · rw [if_neg hlt] at hmsg'
        cases hmsg'
    · rw [if_neg hi] at hmsg' ho'
      exact hall.fed i msg' o' hmsg' ho'

/-- A hash comes to the others. -/
theorem AllFed.concat {msg : Bytes} {o : HashObject impl}
    (ho : impl.Fed order count compress msg o.fields) :
    impl.AllFed order count compress (msgs ++ [msg]) (hashes ++ [o]) := by
  refine ⟨?_, ?_⟩
  · rw [length_append, length_append, hall.length]
    rfl
  · intro i msg' o' hmsg' ho'
    rw [getElem?_append] at hmsg' ho'
    rw [hall.length] at ho'
    by_cases hi : i < msgs.length
    · rw [if_pos hi] at hmsg' ho'
      exact hall.fed i msg' o' hmsg' ho'
    · rw [if_neg hi] at hmsg' ho'
      rw [mem_singleton.mp (mem_of_getElem? hmsg'), mem_singleton.mp (mem_of_getElem? ho')]
      exact ho

end

theorem modify_of_some {index : Nat} {msg aMessage : Bytes} (hmsg : msgs[index]? = some msg) :
    msgs.modify index (· ++ aMessage) = msgs.set index (msg ++ aMessage) := by
  rw [modify_eq_set, hmsg]
  rfl

/-- The digest as the implementation computes it. -/
def counted (impl : HashImpl) (order : Order) (count : Nat → impl.Length)
    (compress : List Nat → List Nat → List Nat) (msg : Bytes) : Bytes :=
  impl.digest order compress (impl.lengthOctets (count msg.length)) msg

/-- **A call.**  It does what it does to the messages, and returns what it is to digest. -/
theorem AllFed.callL (hall : impl.AllFed order count compress msgs hashes)
    (call : HashCall impl) {within : Nat → Prop} (hzero : within 0)
    (hlawful : ∀ n, within n → impl.Lawful order count (8 * n + 1))
    (hwithin : ∀ msg ∈ call.lengthened msgs, within msg.length) :
    ∃ next, impl.callL compress hashes call =
        .ok (next, (call.digested msgs).map (impl.counted order count compress)) ∧
      impl.AllFed order count compress (call.fed msgs) next := by
  cases call with
  | update index aMessage =>
      simp only [HashImpl.callL, HashCall.fed, HashCall.digested]
      cases hmsg : msgs[index]? with
      | none =>
        rw [hall.none hmsg, modify_eq_self (List.getElem?_eq_none_iff.mp hmsg)]
        exact ⟨hashes, rfl, hall⟩
      | some msg =>
        obtain ⟨o, ho, hfed⟩ := hall.hash hmsg
        have hlen : within (msg ++ aMessage).length :=
          hwithin _ (by simp [HashCall.lengthened, hmsg])
        obtain ⟨fields, hupdate, hfields⟩ := hfed.update (hlawful _ hlen) (Nat.lt_succ_self _)
        refine ⟨hashes.set index { o with fields := fields }, ?_, ?_⟩
        · unfold updateObject
          simp only [ho, hupdate]
          rfl
        · rw [modify_of_some hmsg]
          exact hall.set index hfields
  | hash index aMessage =>
      simp only [HashImpl.callL, HashCall.fed, HashCall.digested]
      cases hmsg : msgs[index]? with
      | none =>
        rw [hall.none hmsg, modify_eq_self (List.getElem?_eq_none_iff.mp hmsg)]
        exact ⟨hashes, rfl, hall⟩
      | some msg =>
        obtain ⟨o, ho, hfed⟩ := hall.hash hmsg
        have hlen : within (msg ++ aMessage).length :=
          hwithin _ (by simp [HashCall.lengthened, hmsg])
        obtain ⟨o', hhash, hfields⟩ := hfed.hashObject (hlawful _ hlen) (Nat.lt_succ_self _)
        refine ⟨hashes.set index o', ?_, ?_⟩
        · simp only [ho, hhash]
          rfl
        · rw [modify_of_some hmsg]
          exact hall.set index hfields
  | copyL index memory =>
      simp only [HashImpl.callL, HashCall.fed, HashCall.digested]
      cases hmsg : msgs[index]? with
      | none =>
        rw [hall.none hmsg]
        refine ⟨hashes, rfl, ?_⟩
        rw [Option.toList_none, append_nil]
        exact hall
      | some msg =>
        obtain ⟨o, ho, hfed⟩ := hall.hash hmsg
        rw [ho]
        exact ⟨_, rfl, hall.concat (hfed.copyL (hlawful 0 hzero) memory)⟩
  | final index aMessage =>
      simp only [HashImpl.callL, HashCall.fed, HashCall.digested]
      cases hmsg : msgs[index]? with
      | none =>
        rw [hall.none hmsg, set_eq_of_length_le (List.getElem?_eq_none_iff.mp hmsg)]
        exact ⟨hashes, rfl, hall⟩
      | some msg =>
        obtain ⟨o, ho, hfed⟩ := hall.hash hmsg
        have hlen : within (msg ++ aMessage).length :=
          hwithin _ (by simp [HashCall.lengthened, hmsg])
        obtain ⟨o', hfinal, hfields⟩ := hfed.finalObject (hlawful _ hlen) (Nat.lt_succ_self _)
        refine ⟨hashes.set index o', ?_, hall.set index hfields⟩
        simp only [ho, hfinal]
        rfl

/-- **A run.** -/
theorem AllFed.callsL (hall : impl.AllFed order count compress msgs hashes)
    (calls : List (HashCall impl)) {within : Nat → Prop} (hzero : within 0)
    (hlawful : ∀ n, within n → impl.Lawful order count (8 * n + 1))
    (hwithin : ∀ msg ∈ HashCall.along HashCall.lengthened msgs calls, within msg.length) :
    ∃ next, impl.callsL compress hashes calls = .ok (next,
      (HashCall.along HashCall.digested msgs calls).map (impl.counted order count compress)) := by
  induction calls generalizing msgs hashes with
  | nil => exact ⟨hashes, rfl⟩
  | cons call calls ih =>
      obtain ⟨next, hcall, hnext⟩ := hall.callL call hzero hlawful
        fun msg hmsg => hwithin msg (mem_append_left _ hmsg)
      obtain ⟨last, hcalls⟩ := ih hnext fun msg hmsg => hwithin msg (mem_append_right _ hmsg)
      refine ⟨last, ?_⟩
      unfold HashImpl.callsL HashCall.along
      rw [hcall]
      simp only [ok_bind]
      rw [hcalls, map_append]
      rfl

/-- The hash that `NewL` makes has been given nothing. -/
theorem allFed_newL {limit : Nat} (h : impl.Lawful order count limit) (memory : HashFields impl) :
    impl.AllFed order count compress [[]] [impl.newL memory] := by
  refine ⟨rfl, ?_⟩
  intro index msg o hmsg ho
  rw [mem_singleton.mp (mem_of_getElem? hmsg), mem_singleton.mp (mem_of_getElem? ho)]
  exact Fed.reset h memory

end HashImpl

end OsSecurity
