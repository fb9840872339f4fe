import FLChat.Keys.Drawing
import FLChat.Messages.Integrity

/-!
# The order of a conversation in the database

The database lists the entries of a conversation by their keys. With the ids of `FNextPushId`, that
is for the messages of one device the order in which they were sent, whatever was rejected, however
late the entries were written and whoever was signed in (`listed_as_sent`).
-/

namespace FLChat.Messages

open Realtime Keys

variable {jpegData : UIImage → Option Data} {user : Client → Option UID}

/-- The conversations on devices that draw their keys. -/
abbrev KeyedState := Keys.System Loc Client Cb Data App Action

/-- The ids of the messages are among the keys of the log, in its order. -/
theorem map_id_sublist (user : Client → Option UID) (log : List MEvent) :
    ((sentMessages user log).map Sent.id).Sublist (log.filterMap Event.key?) := by
  rw [sentMessages, List.map_filterMap]
  induction log with
  | nil => exact .slnil
  | cons ev log ih =>
    cases hsent : sentBy user ev with
    | some m =>
      rw [List.filterMap_cons_some (by rw [hsent]; rfl),
        List.filterMap_cons_some (key_of_sentBy hsent)]
      exact ih.cons_cons _
    | none =>
      rw [List.filterMap_cons_none (by rw [hsent]; rfl)]
      cases hkey : ev.key? with
      | some k =>
        rw [List.filterMap_cons_some hkey]
        exact ih.cons _
      | none =>
        rw [List.filterMap_cons_none hkey]
        exact ih

/-- Where the devices draw their keys, a run is one of the model, and of two messages of one device
whose records the server has answered the earlier one is listed first. -/
theorem listed_as_sent {s₀ s : KeyedState} (hs : Initial s₀.state) (htree : s₀.state.tree = ∅)
    (h₀ : s₀.Fresh)
    (h : Reaches (System.step (program jpegData) Loc.recordKey) (System.Timely (program jpegData))
      s₀ s) :
    Reaches (step (program jpegData)) AnyStep s₀.state s.state ∧
      ∀ user m m', [m', m].Sublist (sentMessages user s.state.log) →
        ∀ c d d' ok ok', .resolved c (.update (.messages m.id) d) ok ∈ s.state.log →
          .resolved c (.update (.messages m'.id) d') ok' ∈ s.state.log →
          compareKey (.key m.id) (.key m'.id) = .lt := by
  have hrun := System.reaches h₀ h
  have hdrawn := System.Drawn.of_reaches h₀ h
  have hbacked := System.Backed.of_reaches hs drawsKeys h
  have hkeys := (Facts.of_reaches hs htree hrun).keys
  refine ⟨hrun, fun user m m' hsent c d d' ok ok' hres hres' => ?_⟩
  obtain ⟨st, hst, hid⟩ := hbacked.resolved c _ d ok hres m.id rfl
  obtain ⟨st', hst', hid'⟩ := hbacked.resolved c _ d' ok' hres' m'.id rfl
  have hlog := (hsent.map Sent.id).trans (map_id_sublist user s.state.log)
  rw [← hid, ← hid']
  refine hdrawn.lt_of_log hkeys hst hst' ?_
  rw [hid, hid']
  exact hlog

/-- Nothing was drawn yet. -/
def keyedStart : KeyedState := ⟨start, fun _ => .initial, []⟩

/-- Alice sends two messages within a millisecond, and the server accepts both records. -/
def quickSends : List (Keys.SystemLabel Client Action) :=
  let call := some (1600000000000, #v[5, 17, 42, 0, 63, 8, 29, 11, 50, 3, 7, 63])
  [(.press (.sendBtnPressed aliceVC "one") ⟨"-MH6Qc--4Ge-z7SAm26z", 0⟩, call),
   (.press (.sendBtnPressed aliceVC "two") ⟨"-MH6Qc--4Ge-z7SAm27-", 0⟩, call),
   (.commit 0 true, none), (.commit 0 true, none)]

def quicklySent : KeyedState :=
  (exec (System.step (program fun _ => none) Loc.recordKey)
    (System.Timely (program fun _ => none)) keyedStart quickSends).get (by decide +kernel)

theorem listed_as_sent_quicklySent :
    compareKey (.key "-MH6Qc--4Ge-z7SAm26z") (.key "-MH6Qc--4Ge-z7SAm27-") = .lt :=
  (listed_as_sent (s := quicklySent) start_start.initial start_start.tree ⟨rfl, rfl⟩
    (.of_exec (Option.some_get _).symm)).2 start.app.currentUser
    ⟨"-MH6Qc--4Ge-z7SAm26z", "alice", "bob", 0, .text "one"⟩
    ⟨"-MH6Qc--4Ge-z7SAm27-", "alice", "bob", 0, .text "two"⟩ (by decide +kernel) 0
    (textValue "alice" "bob" 0 "one") (textValue "alice" "bob" 0 "two") true true
    (List.mem_of_getElem? (i := 1) rfl) (List.mem_of_getElem? (i := 0) rfl)

end FLChat.Messages
