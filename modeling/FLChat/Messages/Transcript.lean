import FLChat.Messages.Delivery

/-!
# The order of a conversation

Two observers of a conversation end with the same messages (`transcripts_perm`). Their order is the
order in which the replies to their single reads were delivered, which nothing fixes: neither the
keys nor the time stamps are looked at, and `exchanged` ends a run with the two messages in opposite
orders on the two devices.
-/

namespace FLChat.Messages

open Realtime

variable {jpegData : UIImage → Option Data} {user : Client → Option UID} {s₀ s : MState}

/-- The call observes the conversation of `u` and `v`, on the device of either of them. -/
def Observes (user : Client → Option UID) (log : List MEvent) (call : Call) (u v : UID) : Prop :=
  (∃ e : Env, call.id = e.key ∧ .pressed (.viewDidAppear call.vc) e ∈ log) ∧
    (user call.vc.client = some u ∧ call.vc.uid = v ∨
      user call.vc.client = some v ∧ call.vc.uid = u)

/-- The ids of the messages an observer got, in the order in which their replies were delivered. -/
def replyIds (call : Call) (log : List MEvent) : List String := (replies call log).map Prod.fst

theorem conversation_comm (user : Client → Option UID) (log : List MEvent) (u v : UID) :
    conversation user log u v = conversation user log v u :=
  List.filter_congr fun _ _ => decide_eq_decide.2 ⟨Sent.Between.symm, Sent.Between.symm⟩

theorem eq_of_map_eq {α β : Type} {f : α → β} {xs ys : List α} (h : xs.map f = ys.map f)
    (hinj : ∀ x ∈ xs, ∀ y ∈ ys, f x = f y → x = y) : xs = ys := by
  induction xs generalizing ys with
  | nil => exact (List.map_eq_nil_iff.1 h.symm).symm
  | cons x xs ih =>
    cases ys with
    | nil => cases h
    | cons y ys =>
      obtain ⟨hxy, h⟩ := List.cons.inj h
      rw [hinj x List.mem_cons_self y List.mem_cons_self hxy,
        ih h fun a ha b hb => hinj a (List.mem_cons_of_mem _ ha) b (List.mem_cons_of_mem _ hb)]

section Observed

variable (hs : Start s₀) (h : Reaches (step (program jpegData)) Delivers s₀ s)
  (hq : s.Quiescent) {call call' : Call} {u v : UID}
include hs h hq

theorem replies_perm_of_observes
    (ho : Observes s₀.app.currentUser s.log call u v) : (replies call s.log).Perm
      ((conversation s₀.app.currentUser s.log u v).map fun m => (m.id, m.message)) := by
  obtain ⟨vc, id⟩ := call
  obtain ⟨⟨e, rfl, hev⟩, ⟨hu, rfl⟩ | ⟨hu, rfl⟩⟩ := ho
  · exact replies_perm_conversation hs h hq hev hu
  · rw [conversation_comm]
    exact replies_perm_conversation hs h hq hev hu

/-- The observers of a conversation hold the same messages, each in the order of its replies. Where
the replies came in the same order, so do the messages. -/
theorem transcripts_perm (ho : Observes s₀.app.currentUser s.log call u v)
    (ho' : Observes s₀.app.currentUser s.log call' u v) :
    (s.app.messages call).Perm (s.app.messages call') ∧
      (replyIds call s.log).Perm (replyIds call' s.log) ∧
      List.Forall₂ (fun id message => ∃ m ∈ conversation s₀.app.currentUser s.log u v,
        m.id = id ∧ m.message = message) (replyIds call s.log) (s.app.messages call) ∧
      (replyIds call s.log = replyIds call' s.log →
        s.app.messages call = s.app.messages call') := by
  have hscreen := screen_of_reaches hs h
  have hp := replies_perm_of_observes hs h hq ho
  have hp' := replies_perm_of_observes hs h hq ho'
  -- a reply is a message of the conversation under its id
  have hsent : ∀ call, Observes s₀.app.currentUser s.log call u v → ∀ x ∈ replies call s.log,
      ∃ m ∈ conversation s₀.app.currentUser s.log u v, (m.id, m.message) = x := fun call ho x hx =>
    List.mem_map.1 ((replies_perm_of_observes hs h hq ho).mem_iff.1 hx)
  rw [hscreen.messages, hscreen.messages]
  refine ⟨(hp.trans hp'.symm).map _, (hp.trans hp'.symm).map _, ?_, fun heq => ?_⟩
  · rw [replyIds, List.forall₂_map_left_iff, List.forall₂_map_right_iff, List.forall₂_same]
    intro x hx
    obtain ⟨m, hm, rfl⟩ := hsent call ho x hx
    exact ⟨m, hm, rfl, rfl⟩
  · congr 1
    refine eq_of_map_eq heq fun x hx y hy hxy => ?_
    exact List.inj_on_of_nodup_map (replies_nodup hs h call) hx
      ((hp.trans hp'.symm).mem_iff.2 hy) hxy

end Observed

theorem observes_alice : Observes start.app.currentUser exchanged.log ⟨aliceVC, "a0"⟩ "alice"
    "bob" :=
  ⟨⟨⟨"a0", 0⟩, rfl, List.mem_of_getElem? (i := 25) rfl⟩, .inl ⟨rfl, rfl⟩⟩

theorem observes_bob : Observes start.app.currentUser exchanged.log ⟨bobVC, "b0"⟩ "alice" "bob" :=
  ⟨⟨⟨"b0", 1⟩, rfl, List.mem_of_getElem? (i := 23) rfl⟩, .inr ⟨rfl, rfl⟩⟩

theorem transcripts_perm_exchanged :
    (exchanged.app.messages ⟨aliceVC, "a0"⟩).Perm (exchanged.app.messages ⟨bobVC, "b0"⟩) :=
  (transcripts_perm start_start exchanged_reached exchanged_quiescent observes_alice
    observes_bob).1

/-- All observers of a conversation hold the same sequence in the end. -/
def TranscriptsAgree (jpegData : UIImage → Option Data) : Prop :=
  ∀ s₀ s, Start s₀ → Reaches (step (program jpegData)) Delivers s₀ s → s.Quiescent →
    ∀ u v call call', Observes s₀.app.currentUser s.log call u v →
      Observes s₀.app.currentUser s.log call' u v → s.app.messages call = s.app.messages call'

/-- In the exchange Alice sees "one" before "two" and Bob sees "two" before "one". -/
theorem not_transcriptsAgree : ¬ TranscriptsAgree fun _ => none := by
  intro h
  have heq := h start exchanged start_start exchanged_reached exchanged_quiescent _ _ _ _
    observes_alice observes_bob
  revert heq
  decide +kernel

end FLChat.Messages
