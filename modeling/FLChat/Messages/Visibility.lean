import FLChat.Messages.Integrity

/-!
# Both sides of a message

The two index entries of a message are two writes of their own, issued one after the other once the
record is accepted. Each entry is there exactly if the server accepted its write, and there is
neither without the record. A sender whose process lives until nothing is in flight has both or
neither, unless the server rejects one of the two (`seen_by_both`); a rejection or the end of the
process between the two leaves the message on one side (`seen_by_one`).
-/

namespace FLChat.Messages

open Realtime

variable {jpegData : UIImage → Option Data} {s₀ s s' : MState} {c : Client} {m : Sent} {id : String}

/-- Client `c` has sent `m`, and the record is on its way. -/
def Sending (c : Client) (m : Sent) (s : MState) : Prop :=
  ⟨c, .update (.messages m.id) m.value, some (.messageWritten m.fromId m.toId m.id)⟩ ∈ s.writes

/-- The index entries of a message. -/
def Sent.entry (m : Sent) : Loc := .usersMessages m.fromId m.toId m.id

def Sent.recipientEntry (m : Sent) : Loc := .usersMessages m.toId m.fromId m.id

/-- `handleSend` puts the record on its way. -/
theorem sending_of_press {vc : MessageVC} {text : String} {e : Env} {fromId : UID}
    (hu : s.app.currentUser vc.client = some fromId)
    (hstep : step (program jpegData) s (.press (.sendBtnPressed vc text) e) = some s') :
    Sending vc.client ⟨e.key, fromId, vc.uid, e.now, .text text⟩ s' := by
  cases transition_of_step hstep with
  | press hkey hact =>
    simp only [program_act, act, handleSend, hu] at hact
    split at hact
    · cases hact
    · split at hact
      · cases hact
      · cases hact
        exact List.mem_append_right _ List.mem_cons_self

/-! ## What stops a sender -/

section Trapped

variable {app : App} (ht : app.trapped c = true)
include ht

theorem App.trap_trapped (c' : Client) : (app.trap c').trapped c = true := by
  change (if c = c' then true else app.trapped c) = true
  split
  · rfl
  · exact ht

theorem handleSend_trapped (c' : Client) (vc : MessageVC) (text : String)
    (url : Option DownloadURL) (img : Option UIImage) (e : Env) :
    (handleSend c' vc text url img e app).1.trapped c = true := by
  unfold handleSend
  split
  · exact App.trap_trapped ht c'
  · split
    · exact App.trap_trapped ht c'
    · exact ht
    · exact ht

theorem handle_trapped (c' : Client) (e : Env) (cb : Cb) (input : Input Loc) :
    (handle c' e cb input app).1.trapped c = true := by
  unfold handle
  split
  · exact ht
  split
  · exact ht
  · exact ht
  · unfold messageRead
    split
    · exact ht
    · split
      · exact App.trap_trapped ht c'
      · exact ht
  · exact ht
  · exact handleSend_trapped ht ..
  · exact ht

theorem act_trapped {a : Action} {e : Env} {app' : App} {c' : Client} {cmds : List Command}
    (hact : act jpegData a e app = some (c', app', cmds)) : app'.trapped c = true := by
  unfold act at hact
  split at hact
  · cases hact
  cases a with
  | viewDidAppear | signOut | signIn =>
    cases hact
    exact ht
  | sendBtnPressed vc text =>
    simp only at hact
    split at hact
    · cases hact
    · obtain ⟨-, hsend⟩ := Prod.mk.inj (Option.some.inj hact)
      rw [← show _ = app' from congrArg Prod.fst hsend]
      exact handleSend_trapped ht ..
  | pickImage vc image =>
    obtain ⟨-, hupload⟩ := Prod.mk.inj (Option.some.inj hact)
    rw [← show _ = app' from congrArg Prod.fst hupload]
    unfold uploadToStorageUsingImage
    split
    · exact App.trap_trapped ht _
    · split <;> exact ht
  | timerFired vc =>
    simp only at hact
    split at hact <;> cases hact
    exact ht
  | reloadCollection vc =>
    simp only at hact
    split at hact
    · cases hact
    · cases hact
      unfold reloadAndScroll
      split
      · exact App.trap_trapped ht _
      · exact ht

end Trapped

/-- Only the end of the process clears a trap. -/
theorem trapped_step {l : MLabel} (hl : l ≠ .die c)
    (hs : Transition (program jpegData) s l s') (ht : s.app.trapped c = true) :
    s'.app.trapped c = true := by
  cases hs with
  | press _ hact => exact act_trapped ht hact
  | @run i e t app cmds _ _ hrun =>
    have happ : (handle t.client e t.cb t.input s.app).1 = app := congrArg Prod.fst hrun
    exact happ ▸ handle_trapped ht ..
  | @die c' =>
    have hne : c ≠ c' := fun he => hl (by rw [he])
    simpa [program, die, hne] using ht
  | apply | reject | serve => exact ht

/-- The process of `c` runs from `s` to `s'`: it neither ends nor traps. -/
structure Lives (c : Client) (s s' : MState) : Prop where
  died : .died c ∉ since s s'
  trapped : s'.app.trapped c = false

/-- A run over which a process lives takes it through no trap on the way. -/
theorem Lives.reaches (h : Reaches (step (program jpegData)) AnyStep s s') (hlives : Lives c s s') :
    Reaches (step (program jpegData)) (fun s l => l ≠ .die c ∧ s.app.trapped c = false) s s' := by
  have hend := (lives_of_reaches h hlives.died).of_end (I := fun s => s.app.trapped c = false)
    hlives.trapped fun {t l u} _ hl hstep hu => by
      refine Bool.eq_false_iff.2 fun ht => ?_
      rw [trapped_step hl.2 (transition_of_step hstep) ht] at hu
      cases hu
  exact hend.mono fun _ _ hl => ⟨hl.1.2, hl.2.1⟩

/-! ## The entries -/

/-- What is left of a message on both sides when nothing is in flight. -/
structure Seen (c : Client) (m : Sent) (s s' : MState) : Prop where
  entry : m.entry ∈ s'.tree ↔ Written s'.log m.entry
  recipientEntry : m.recipientEntry ∈ s'.tree ↔ Written s'.log m.recipientEntry
  record : ¬ Written s'.log (.messages m.id) → m.entry ∉ s'.tree ∧ m.recipientEntry ∉ s'.tree
  agree : Lives c s s' → ¬ Rejected s'.log m.entry → ¬ Rejected s'.log m.recipientEntry →
    (m.entry ∈ s'.tree ↔ m.recipientEntry ∈ s'.tree)

theorem Facts.record_written (h : Facts jpegData s) {u v : UID}
    (hw : Written s.log (.usersMessages u v id)) : Written s.log (.messages id) := by
  obtain ⟨c, m, rfl, -, hr⟩ := h.record_of_entry hw
  exact ⟨c, _, hr⟩

section Sender

variable (h : Reaches (step (program jpegData)) AnyStep s s') (hlives : Lives c s s')
  (hq : s'.Quiescent)
include h hlives hq

/-- Once the record is accepted, both index writes are answered. -/
theorem entries_answered {e : Env}
    (hev : .ran ⟨c, .messageWritten m.fromId m.toId m.id, .acked true⟩ e ∈ since s s') :
    (∃ ok, .resolved c (.update m.entry (1 : ℕ)) ok ∈ s'.log) ∧
      ∃ ok, .resolved c (.update m.recipientEntry (1 : ℕ)) ok ∈ s'.log := by
  have hp : ProgressedSince (program jpegData)
      (fun ev app => ∀ t e, ev = .ran t e → t.client = c → app.trapped c = false)
      (fun c' => c' = c) s s' :=
    .of_reaches (fun _ _ hc hl => hl.1 (hc ▸ rfl)) (fun {t l} _ hl => ?_) (hlives.reaches h)
  · obtain ⟨app, happ, hp⟩ := hp.ran _ _ hev
    have htrapped := happ _ _ rfl rfl
    simp only [program_handle, handle, htrapped, Bool.false_eq_true, ↓reduceIte, messageWritten]
      at hp
    obtain ⟨ok, hr, -⟩ := (hp trivial _ List.mem_cons_self).write_of_quiescent hq
    obtain ⟨ok', hr', -⟩ :=
      (hp trivial _ (List.mem_cons_of_mem _ List.mem_cons_self)).write_of_quiescent hq
    exact ⟨⟨ok, hr⟩, ok', hr'⟩
  · cases l with
    | run => exact fun _ _ _ _ _ _ => hl.2
    | press => exact fun _ _ he => by cases he
    | commit | serve | die => trivial

variable (hs : Initial s₀) (htree : s₀.tree = ∅)
  (h₀ : Reaches (step (program jpegData)) AnyStep s₀ s) (hsend : Sending c m s)
include hs htree h₀ hsend

/-- The completion of the record has run. -/
theorem completed : ∃ ok e, .resolved c (.update (.messages m.id) m.value) ok ∈ s'.log ∧
    .ran ⟨c, .messageWritten m.fromId m.toId m.id, .acked ok⟩ e ∈ since s s' := by
  have hp : Progress s' c (.write (.update (.messages m.id) m.value)
      (some (.messageWritten m.fromId m.toId m.id))) :=
    Progress.of_reaches (fun _ hl => hl.1 rfl) (hlives.reaches h) (.inl hsend)
  obtain ⟨ok, hr, hrun⟩ := hp.write_of_quiescent hq
  obtain ⟨e, hrun⟩ := hrun _ rfl
  refine ⟨ok, e, hr, ?_⟩
  rw [← since_append (log_suffix h)] at hrun
  refine (List.mem_append.1 hrun).resolve_right fun hold => ?_
  -- before, the record was still on its way
  have hf : Facts jpegData s := .of_reaches hs htree h₀
  obtain ⟨m', -, -, -, hr⟩ := hf.record_of_completion hold
  exact hf.once.settled (.messages m.id) rfl ⟨_, _, _, hr⟩ _ hsend _ rfl

/-- A sender whose process lives has both entries, or it has neither. -/
theorem agree (hentry : ¬ Rejected s'.log m.entry)
    (hrecipient : ¬ Rejected s'.log m.recipientEntry) :
    Written s'.log m.entry ↔ Written s'.log m.recipientEntry := by
  have hf : Facts jpegData s' := .of_reaches hs htree (h₀.trans h)
  obtain ⟨ok, e, hr, hrun⟩ := completed h hlives hq hs htree h₀ hsend
  cases ok with
  | false =>
    have hnot : ¬ Written s'.log (.messages m.id) := fun ⟨c', d, hr'⟩ => by
      obtain ⟨-, -, he⟩ := hf.once.once (.messages m.id) rfl _ _ _ _ _ _ hr hr'
      cases he
    exact iff_of_false (fun hw => hnot (hf.record_written hw)) fun hw => hnot (hf.record_written hw)
  | true =>
    obtain ⟨⟨ok, hr⟩, ok', hr'⟩ := entries_answered h hlives hq hrun
    refine iff_of_true ?_ ?_
    · cases ok with
      | true => exact ⟨_, _, hr⟩
      | false => exact absurd ⟨_, _, hr⟩ hentry
    · cases ok' with
      | true => exact ⟨_, _, hr'⟩
      | false => exact absurd ⟨_, _, hr'⟩ hrecipient

end Sender

theorem seen_by_both (hs : Initial s₀) (htree : s₀.tree = ∅)
    (h₀ : Reaches (step (program jpegData)) AnyStep s₀ s) (hsend : Sending c m s)
    (h : Reaches (step (program jpegData)) AnyStep s s') (hq : s'.Quiescent) : Seen c m s s' := by
  have hf : Facts jpegData s' := .of_reaches hs htree (h₀.trans h)
  refine ⟨hf.mem_tree_iff, hf.mem_tree_iff, fun hrecord => ?_, fun hlives hentry hrecipient => ?_⟩
  · exact ⟨fun hmem => hrecord (hf.record_written (hf.mem_tree_iff.1 hmem)),
      fun hmem => hrecord (hf.record_written (hf.mem_tree_iff.1 hmem))⟩
  · rw [hf.mem_tree_iff, hf.mem_tree_iff]
    exact agree h hlives hq hs htree h₀ hsend hentry hrecipient

/-! ## One side only -/

/-- Alice has sent a message to Bob. -/
def sent : MState :=
  (exec (step (program fun _ => none)) AnyStep start
    [.press (.sendBtnPressed aliceVC "one") ⟨"m1", 0⟩]).get (by decide +kernel)

def sentOne : Sent := ⟨"m1", "alice", "bob", 0, .text "one"⟩

theorem sent_reached : Reaches (step (program fun _ => none)) AnyStep start sent :=
  .of_exec (Option.some_get _).symm

theorem sending_sent : Sending 0 sentOne sent := by
  have hstep : step (program fun _ => none) start
      (.press (.sendBtnPressed aliceVC "one") ⟨"m1", 0⟩) = some sent := rfl
  exact sending_of_press rfl hstep

/-- The record is accepted and both index writes are issued, then `ending` happens. -/
def indexed (ending : List MLabel) : List MLabel :=
  [.commit 0 true, .run 0 ⟨"x1", 1⟩] ++ ending

/-- The server accepts both index writes. -/
def bothSides : MState :=
  (exec (step (program fun _ => none)) AnyStep sent
    (indexed [.commit 0 true, .commit 0 true])).get (by decide +kernel)

/-- The server rejects the sender's index write and accepts the recipient's. -/
def recipientSide : MState :=
  (exec (step (program fun _ => none)) AnyStep sent
    (indexed [.commit 0 false, .commit 0 true])).get (by decide +kernel)

/-- The process ends after the sender's index write. -/
def senderSide : MState :=
  (exec (step (program fun _ => none)) AnyStep sent
    (indexed [.commit 0 true, .die 0])).get (by decide +kernel)

def endsProcess : MEvent → Bool
  | .died _ => true
  | _ => false

def rejects : MEvent → Bool
  | .resolved _ _ ok => !ok
  | _ => false

theorem seen_by_both_bothSides : Seen 0 sentOne sent bothSides :=
  seen_by_both start_start.initial start_start.tree sent_reached sending_sent
    (.of_exec (Option.some_get _).symm) ⟨rfl, rfl, rfl⟩

/-- A rejection alone leaves a message on one side, and so does the end of the process alone. -/
theorem seen_by_one :
    (¬ ∀ (s₀ s s' : MState) (c : Client) (m : Sent), Start s₀ →
      Reaches (step (program fun _ => none)) AnyStep s₀ s → Sending c m s →
      Reaches (step (program fun _ => none)) AnyStep s s' → Lives c s s' → s'.Quiescent →
      (m.entry ∈ s'.tree ↔ m.recipientEntry ∈ s'.tree)) ∧
    ¬ ∀ (s₀ s s' : MState) (c : Client) (m : Sent), Start s₀ →
      Reaches (step (program fun _ => none)) AnyStep s₀ s → Sending c m s →
      Reaches (step (program fun _ => none)) AnyStep s s' → (∀ l, ¬ Rejected s'.log l) →
      s'.Quiescent → (m.entry ∈ s'.tree ↔ m.recipientEntry ∈ s'.tree) := by
  constructor
  · intro h
    have hdied : (since sent recipientSide).any endsProcess = false := rfl
    have hone := h start sent recipientSide 0 sentOne start_start sent_reached sending_sent
      (.of_exec (Option.some_get _).symm)
      ⟨fun hev => List.any_eq_false.1 hdied _ hev rfl, rfl⟩ ⟨rfl, rfl, rfl⟩
    exact absurd hone (by decide +kernel)
  · intro h
    have hrejected : senderSide.log.any rejects = false := rfl
    have hone := h start sent senderSide 0 sentOne start_start sent_reached sending_sent
      (.of_exec (Option.some_get _).symm)
      (fun _ ⟨_, _, hev⟩ => List.any_eq_false.1 hrejected _ hev rfl)
      ⟨rfl, rfl, rfl⟩
    exact absurd hone (by decide +kernel)

end FLChat.Messages
