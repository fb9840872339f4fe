import FLChat.Messages.Delivery
import FLChat.Realtime.Settling

/-!
# Every message arrives in the end

The chains of a message are short: its record, its two index entries, and for each observer that is
told about an entry the read of the record. So they all come to an end (`descends`), from whatever
state and whatever the server answers (`conversations_settle`), and where nothing fails they end
with every message in the array of every observer of its conversation (`inevitably_arrived`).
-/

namespace FLChat.Messages

open Realtime

variable {jpegData : UIImage → Option Data} {s₀ s t : MState}

/-! ## The callbacks end -/

/-- A picture is uploaded and its URL fetched before its message is written, and the record of a
message before its index entries, which wake the observers. -/
def rank : Kind → Cb → ℕ
  | .acked, .messageWritten .. => 4
  | .childAdded, .messageAdded _ => 2
  | .stored, .pictureStored .. => 8
  | .url, .pictureURL .. => 6
  | _, _ => 0

def ranking : Ranking Cb where
  rank := rank
  child := 2
  value := 0
  rank_childAdded_le cb := by cases cb <;> simp [rank]
  rank_value_le cb := by cases cb <;> simp [rank]

theorem descends : ranking.Descends (program jpegData) := by
  intro c e cb input app cmd hcmd
  have hissues : Issues jpegData app.currentUser (.ran ⟨c, cb, input⟩ e) c cmd :=
    issues_of_handle rfl hcmd
  cases hissues with
  | send h =>
    unfold sentBy at h
    split at h
    · next he => cases he
    · next he =>
      cases he
      exact (by decide : 5 < 6)
    · cases h
  | index | recipientIndex => exact (by decide : 3 < 4)
  | read => exact (by decide : 1 < 2)
  | fetchURL => exact (by decide : 7 < 8)

/-- Whatever happens, in the end nothing is in flight. -/
theorem conversations_settle (s : MState) :
    Inevitably (Works (program jpegData) fun _ _ => True) State.Quiescent s :=
  settles descends s

/-! ## Delivery -/

/-- Everything sent by `s` has arrived in `t`: every view controller that had appeared has, for each
of its appearances, its whole conversation once. -/
structure Arrived (s₀ s t : MState) : Prop where
  quiescent : t.Quiescent
  sent : ∀ m ∈ sentMessages s₀.app.currentUser s.log, m ∈ sentMessages s₀.app.currentUser t.log
  messages : ∀ vc e uid, .pressed (.viewDidAppear vc) e ∈ s.log →
    s₀.app.currentUser vc.client = some uid →
      (t.app.messages ⟨vc, e.key⟩).Perm
        ((conversation s₀.app.currentUser t.log uid vc.uid).map Sent.message)

/-- Where nothing fails, what was sent arrives in whatever order the server and the devices go
on. -/
theorem inevitably_arrived (hs : Start s₀) (h : Reaches (step (program jpegData)) Delivers s₀ s) :
    Inevitably (Works (program jpegData) Delivers) (Arrived s₀ s) s := by
  refine inevitably_of_quiescent descends (fun s l hworks hok => ?_) fun t ht hq => ?_
  · cases l with
    | run | serve => trivial
    | commit => exact hok
    | press | die => cases hworks
  · have ht : Reaches (step (program jpegData)) Delivers s t := ht.mono fun _ _ hl => hl.2
    have hlog := (log_suffix ht).subset
    refine ⟨hq, fun m hm => ?_, fun vc e uid hev hu => ?_⟩
    · obtain ⟨ev, hev, hm⟩ := mem_sentMessages.1 hm
      exact mem_sentMessages.2 ⟨ev, hlog hev, hm⟩
    · exact messages_perm_conversation hs (h.trans ht) hq (hlog hev) hu

/-- A scheduler that goes on as long as something is in flight gets there. -/
theorem arrived_of_scheduled (hs : Start s₀)
    (h : Reaches (step (program jpegData)) Delivers s₀ s) {run : ℕ → MState} (hstart : run 0 = s)
    (hgoes : ∀ n, (∃ t, Works (program jpegData) Delivers (run n) t) →
      Works (program jpegData) Delivers (run n) (run (n + 1))) : ∃ n, Arrived s₀ s (run n) :=
  (inevitably_arrived hs h).exists_of_scheduled hstart hgoes

/-- Both have opened their conversation, and Alice has just pressed the send button. -/
theorem sending_runs :
    (exec (step (program fun _ => none)) Delivers start (exchange.take 5)).isSome = true := by
  decide +kernel

theorem inevitably_arrived_sending :
    Inevitably (Works (program fun _ => none) Delivers)
      (Arrived start ((exec (step (program fun _ => none)) Delivers start (exchange.take 5)).get
        sending_runs))
      ((exec (step (program fun _ => none)) Delivers start (exchange.take 5)).get sending_runs) :=
  inevitably_arrived start_start (.of_exec (Option.some_get _).symm)

end FLChat.Messages
