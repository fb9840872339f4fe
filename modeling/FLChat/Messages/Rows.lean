import FLChat.Messages.Reload
import FLChat.Realtime.Pending

/-!
# The rows of the collection view

The collection view may ask for every row that it counted at its last reload. Each appearance of a
view controller attaches another observer, which starts with an empty array of its own, and every
delivery shows the array of the observer that delivers. If this one is more than one message behind
the rows, a row is left without its message (`not_rowsInRange`).

No observer gets behind as long as a view controller appears while at most one row is counted, and
the rows are counted while its observers are abreast of them (`Abreast`): then every row has its
message. Where a step breaks the condition, an observer is behind from then on and delivers nothing
more while the rows stay in range (`rowsInRange_of_reaches`).
-/

namespace FLChat.Messages

open Realtime

variable {jpegData : UIImage → Option Data} {app app' : App} {s₀ s s' t : MState} {l : MLabel}
  {call : Call}

/-- Every row that the collection view has counted has its message. -/
def RowsInRange (app : App) : Prop :=
  ∀ vc row, row < app.itemCount vc → row < (app.messagesArray vc).length

/-- The observer that a callback works for. -/
def Cb.call? : Cb → Option Call
  | .messageAdded call | .messageRead call => some call
  | .messageWritten .. | .pictureStored .. | .pictureURL .. => none

/-- The next message of the observer does not reach the last row that is counted. -/
def Behind (app : App) (call : Call) : Prop :=
  (app.messages call).length + 1 < app.itemCount call.vc

/-- A view controller attaches an observer only while at most one row is counted, and its rows are
counted only while none of its observers is more than one message behind what it shows. -/
def Abreast (s : MState) : MLabel → Prop
  | .press (.viewDidAppear vc) _ =>
    (s.app.currentUser vc.client).isSome = true → s.app.itemCount vc ≤ 1
  | .press (.reloadCollection vc) _ =>
    ∀ cb ∈ s.pending vc.client, ∀ call ∈ cb.call?, call.vc = vc →
      (s.app.messagesArray vc).length ≤ (s.app.messages call).length + 1
  | .press (.sendBtnPressed ..) _ | .press (.pickImage ..) _ | .press (.timerFired _) _
  | .press (.signOut _) _ | .press (.signIn ..) _
  | .run .. | .commit .. | .serve .. | .die _ => True

instance (s : MState) : DecidablePred (Abreast s)
  | .press (.viewDidAppear vc) _ => inferInstanceAs
    (Decidable ((s.app.currentUser vc.client).isSome = true → s.app.itemCount vc ≤ 1))
  | .press (.reloadCollection vc) _ => inferInstanceAs
    (Decidable (∀ cb ∈ s.pending vc.client, ∀ call ∈ cb.call?, call.vc = vc → _))
  | .press (.sendBtnPressed ..) _ | .press (.pickImage ..) _ | .press (.timerFired _) _
  | .press (.signOut _) _ | .press (.signIn ..) _ | .run .. | .commit .. | .serve .. | .die _ =>
    isTrue trivial

theorem rowsInRange_iff :
    RowsInRange app ↔ ∀ vc, app.itemCount vc ≤ (app.messagesArray vc).length := by
  refine forall_congr' fun vc => ⟨fun h => ?_, fun h row hrow => by omega⟩
  by_contra hlt
  exact absurd (h (app.messagesArray vc).length (by omega)) (lt_irrefl _)

/-! ## What a step does to the rows -/

theorem RowsInRange.congr (h : RowsInRange app) (hsame : SameScreen app app') :
    RowsInRange app' := by
  intro vc
  rw [hsame.itemCount, hsame.messagesArray]
  exact h vc

theorem RowsInRange.reload (h : RowsInRange app) (vc : MessageVC) :
    RowsInRange (app.reload vc) := by
  intro vc'
  by_cases hvc : vc' = vc
  · simp [App.reload, hvc]
  · simpa [App.reload, hvc] using h vc'

theorem RowsInRange.die (h : RowsInRange app) (c : Client) :
    RowsInRange (Messages.die c app) := by
  intro vc
  by_cases hvc : vc.client = c
  · simp [Messages.die, hvc]
  · simpa [Messages.die, hvc] using h vc

/-- After a delivery the rows are in range exactly if its observer was not behind. -/
theorem RowsInRange.deliver_iff (h : RowsInRange app) (call : Call) (message : Message) :
    RowsInRange (app.deliver call message) ↔ ¬ Behind app call := by
  rw [rowsInRange_iff] at h ⊢
  rw [Behind, not_lt]
  refine ⟨fun h' => by simpa [App.deliver] using h' call.vc, fun hle vc => ?_⟩
  by_cases hvc : vc = call.vc
  · simpa [App.deliver, hvc] using hle
  · simpa [App.deliver, hvc] using h vc

/-- Only a delivery leaves a row without its message. -/
theorem RowsInRange.step (h : RowsInRange s.app) (hs : Shows s l app')
    (hdelivers : ∀ x ∈ deliveryIn s l, ¬ Behind s.app x.1) : RowsInRange app' := by
  cases hs with
  | same _ hsame => exact h.congr hsame
  | delivered hl => exact (h.deliver_iff _ _).2 (hdelivers _ hl)
  | fired => exact h
  | reloaded _ he =>
    subst he
    exact (h.reload _).congr (sameScreen_reloadAndScroll _ _)
  | died => exact h.die _

/-! ## The observers -/

/-- Sending asks nothing for an observer. -/
theorem call_of_handleSend {c : Client} {vc : MessageVC} {text : String} {url : Option DownloadURL}
    {img : Option UIImage} {e : Env} {cmd : Command} {cb : Cb}
    (hcmd : cmd ∈ (handleSend c vc text url img e app).2) (hcb : cmd.completion = some cb) :
    cb.call? = none := by
  unfold handleSend at hcmd
  split at hcmd
  · cases hcmd
  split at hcmd
  · cases hcmd
  · cases List.mem_singleton.1 hcmd
    cases hcb
    rfl
  · cases List.mem_singleton.1 hcmd
    cases hcb
    rfl

/-- A press attaches an observer where the view controller appears. -/
theorem call_of_act {a : Action} {e : Env} {c : Client} {cmds : List Command} {cmd : Command}
    {cb : Cb} (hact : act jpegData a e app = some (c, app', cmds)) (hcmd : cmd ∈ cmds)
    (hcb : cmd.completion = some cb) (hcall : cb.call? = some call) :
    a = .viewDidAppear call.vc ∧ c = call.vc.client ∧ call.id = e.key ∧ app' = app ∧
      (app.currentUser call.vc.client).isSome = true := by
  unfold act at hact
  split at hact
  · cases hact
  cases a with
  | viewDidAppear vc =>
    cases hact
    unfold observUserMessages at hcmd
    split at hcmd
    · cases hcmd
    · next uid hu =>
      cases List.mem_singleton.1 hcmd
      cases hcb
      cases hcall
      exact ⟨rfl, rfl, rfl, rfl, by rw [hu]; rfl⟩
  | sendBtnPressed vc text =>
    simp only at hact
    split at hact
    · cases hact
    · obtain ⟨-, hsend⟩ := Prod.mk.inj (Option.some.inj hact)
      obtain rfl := congrArg Prod.snd hsend
      cases (call_of_handleSend hcmd hcb).symm.trans hcall
  | pickImage vc image =>
    obtain ⟨-, hupload⟩ := Prod.mk.inj (Option.some.inj hact)
    obtain rfl := congrArg Prod.snd hupload
    unfold uploadToStorageUsingImage at hcmd
    split at hcmd
    · cases hcmd
    · split at hcmd
      · cases hcmd
      · cases List.mem_singleton.1 hcmd
        cases hcb
        cases hcall
  | timerFired vc | reloadCollection vc =>
    simp only at hact
    split at hact <;> cases hact
    cases hcmd
  | signOut | signIn =>
    cases hact
    cases hcmd

/-- A callback passes its observer on. -/
theorem call_of_handle {c : Client} {e : Env} {cb cb' : Cb} {input : Input Loc} {cmd : Command}
    (hcmd : cmd ∈ (handle c e cb' input app).2) (hcb : cmd.completion = some cb)
    (hcall : cb.call? = some call) : cb'.call? = some call := by
  unfold handle at hcmd
  split at hcmd
  · cases hcmd
  split at hcmd
  · unfold messageWritten at hcmd
    split at hcmd
    · simp only [List.mem_cons, List.not_mem_nil, or_false] at hcmd
      rcases hcmd with rfl | rfl <;> cases hcb
    · cases hcmd
  · cases List.mem_singleton.1 hcmd
    cases hcb
    exact hcall
  · cases hcmd
  · cases List.mem_singleton.1 hcmd
    cases hcb
    cases hcall
  · cases (call_of_handleSend hcmd hcb).symm.trans hcall
  · cases hcmd

/-- What is delivered is delivered by an observer. -/
theorem pending_of_delivery {x : Call × Message} (hl : x ∈ deliveryIn s l) :
    ∃ c, .messageRead x.1 ∈ s.pending c := by
  cases l with
  | run i e =>
    obtain ⟨t, ht, hl⟩ := Option.bind_eq_some_iff.1 hl
    refine ⟨t.client, ?_⟩
    have hmem := mem_pending_of_task (List.mem_of_getElem? ht)
    unfold delivery at hl
    split at hl
    · next hcb _ =>
      rw [hcb] at hmem
      split at hl
      · cases hl
      · obtain ⟨message, -, rfl⟩ := Option.map_eq_some_iff.1 hl
        exact hmem
    · cases hl
  | press | commit | serve | die => cases hl

/-- An observer that is not behind gets behind only where rows are counted without it. -/
theorem not_behind_of_shows (hl : Abreast s l) (hs : Shows s l app') {cb : Cb}
    (hcb : cb ∈ s.pending call.vc.client) (hcall : cb.call? = some call)
    (hdie : l ≠ .die call.vc.client) (h : ¬ Behind s.app call) : ¬ Behind app' call := by
  unfold Behind at h ⊢
  cases hs with
  | same _ hsame => rwa [hsame.messages, hsame.itemCount]
  | @delivered _ call' message =>
    by_cases hcalls : call = call'
    · subst hcalls
      simp only [App.deliver, ↓reduceIte, List.length_append, List.length_singleton]
      omega
    · simpa [App.deliver, hcalls] using h
  | fired => exact h
  | @reloaded vc e _ _ he =>
    subst he
    have hsame := sameScreen_reloadAndScroll vc s.app
    rw [hsame.messages, hsame.itemCount]
    by_cases hvc : call.vc = vc
    · subst hvc
      have hle := hl cb hcb call hcall rfl
      simp only [App.reload, ↓reduceIte]
      omega
    · simpa [App.reload, hvc] using h
  | @died c =>
    have hc : call.vc.client ≠ c := fun hc => hdie (by rw [hc])
    simpa [Messages.die, hc] using h

/-! ## Runs -/

/-- The rows are in range, no observer is behind, and observers have names of their own. -/
structure InTime (s : MState) : Prop where
  rows : RowsInRange s.app
  observers : ∀ c, ∀ cb ∈ s.pending c, ∀ call ∈ cb.call?,
    call.vc.client = c ∧ ¬ Behind s.app call ∧ call.id ∈ s.issued
  named : ∀ call, s.app.messages call ≠ [] → call.id ∈ s.issued

theorem issued_subset (h : Transition (program jpegData) s l s') : s.issued ⊆ s'.issued := by
  cases h with
  | press | run => exact List.subset_cons_self _ _
  | apply | reject | serve | die => exact fun _ => id

theorem InTime.id_of_shows (h : InTime s) (hdelivers : ∀ x ∈ deliveryIn s l, x.1.id ∈ s.issued)
    (hs : Shows s l app') (hne : app'.messages call ≠ []) : call.id ∈ s.issued := by
  cases hs with
  | same _ hsame =>
    rw [hsame.messages] at hne
    exact h.named call hne
  | @delivered _ call' message hl =>
    by_cases hcalls : call = call'
    · exact hcalls ▸ hdelivers _ hl
    · refine h.named call ?_
      simpa [App.deliver, hcalls] using hne
  | fired => exact h.named call hne
  | reloaded _ he =>
    subst he
    rw [(sameScreen_reloadAndScroll _ _).messages] at hne
    exact h.named call hne
  | died =>
    refine h.named call fun hnil => hne ?_
    simp [Messages.die, hnil]

theorem InTime.step (h : InTime s) (hl : Abreast s l) (hs : Transition (program jpegData) s l s') :
    InTime s' := by
  have hshows := shows_of_transition hs
  have hdelivers : ∀ x ∈ deliveryIn s l, ¬ Behind s.app x.1 ∧ x.1.id ∈ s.issued := fun x hx => by
    obtain ⟨c, hc⟩ := pending_of_delivery hx
    exact (h.observers c _ hc x.1 rfl).2
  refine ⟨h.rows.step hshows fun x hx => (hdelivers x hx).1, fun c cb hcb call hcall => ?_,
    fun call hne => issued_subset hs (h.id_of_shows (fun x hx => (hdelivers x hx).2) hshows hne)⟩
  have hdie : l ≠ .die c := by
    rintro rfl
    cases hs with
    | die => exact (mem_pending_died hcb).1 rfl
  -- what was under way before the step
  have hold : ∀ cb₀ ∈ s.pending c, cb₀.call? = some call →
      call.vc.client = c ∧ ¬ Behind s'.app call ∧ call.id ∈ s'.issued := by
    intro cb₀ hcb₀ hcall₀
    obtain ⟨rfl, hbehind, hid⟩ := h.observers c cb₀ hcb₀ call hcall₀
    exact ⟨rfl, not_behind_of_shows hl hshows hcb₀ hcall₀ hdie hbehind, issued_subset hs hid⟩
  cases hs with
  | @press a e _ app cmds hkey hact =>
    rcases mem_pending_pressed hcb with hcb | ⟨rfl, hcmd⟩
    · exact hold cb hcb hcall
    obtain ⟨cmd, hcmd, hcb⟩ := List.mem_map.1 hcmd
    obtain ⟨rfl, rfl, hid, rfl, hu⟩ := call_of_act hact hcmd hcb hcall
    refine ⟨rfl, ?_, hid ▸ List.mem_cons_self⟩
    have hle : s.app.itemCount call.vc ≤ 1 := hl hu
    exact not_lt.2 (hle.trans (Nat.le_add_left 1 _))
  | @run i e t app cmds _ ht hrun =>
    rcases mem_pending_ran hcb with hcb | ⟨rfl, hcmd⟩
    · exact hold cb hcb hcall
    obtain ⟨cmd, hcmd, hcb⟩ := List.mem_map.1 hcmd
    have hcmd : cmd ∈ (handle t.client e t.cb t.input s.app).2 := by
      rw [show handle t.client e t.cb t.input s.app = (app, cmds) from hrun]
      exact hcmd
    exact hold t.cb (mem_pending_of_task (List.mem_of_getElem? ht)) (call_of_handle hcmd hcb hcall)
  | apply hw => exact hold cb (mem_pending_applied (List.mem_of_getElem? hw) hcb) hcall
  | reject hw => exact hold cb (mem_pending_rejected (List.mem_of_getElem? hw) hcb) hcall
  | serve ha => exact hold cb (mem_pending_served (List.mem_of_getElem? ha) hcb) hcall
  | die => exact hold cb (mem_pending_died hcb).2 hcall


theorem InTime.initial (hi : Initial s) (hs : s.app.Launched) : InTime s where
  rows := rowsInRange_iff.2 fun vc => (hs.itemCount vc).trans_le (Nat.zero_le _)
  observers := fun c cb hcb => absurd hcb (by
    simp [State.pending, hi.writes, hi.asks, hi.tasks, hi.childObs, hi.valueObs])
  named := fun call hne => absurd (hs.messages call) hne

/-- The process of client `c` lives, and the rows stay in range. -/
def StaysInRange (jpegData : UIImage → Option Data) (c : Client) (s : MState) (l : MLabel) : Prop :=
  l ≠ .die c ∧ ∀ s' ∈ step (program jpegData) s l, RowsInRange s'.app

/-- An observer that is behind delivers nothing in a step that keeps the rows in range. -/
theorem messages_of_shows (hrows : RowsInRange s.app) (hrows' : RowsInRange app')
    (hdie : l ≠ .die call.vc.client) (hbehind : Behind s.app call) (hs : Shows s l app') :
    app'.messages call = s.app.messages call ∧
      s.app.itemCount call.vc ≤ app'.itemCount call.vc := by
  cases hs with
  | same _ hsame =>
    rw [hsame.messages, hsame.itemCount]
    exact ⟨rfl, le_rfl⟩
  | @delivered _ call' message =>
    have hcalls : call ≠ call' := by
      rintro rfl
      exact (hrows.deliver_iff call message).1 hrows' hbehind
    simp [App.deliver, hcalls]
  | fired => exact ⟨rfl, le_rfl⟩
  | @reloaded vc e _ _ he =>
    subst he
    have hsame := sameScreen_reloadAndScroll vc s.app
    rw [hsame.messages, hsame.itemCount]
    refine ⟨rfl, ?_⟩
    by_cases hvc : call.vc = vc
    · subst hvc
      simpa [App.reload] using rowsInRange_iff.1 hrows call.vc
    · simp [App.reload, hvc]
  | @died c =>
    have hc : call.vc.client ≠ c := fun hc => hdie (by rw [hc])
    simp [Messages.die, hc]

/-- An observer that is behind stays so and delivers nothing. -/
theorem messages_of_behind (hrows : RowsInRange s.app) (hbehind : Behind s.app call)
    (h : Reaches (step (program jpegData)) (StaysInRange jpegData call.vc.client) s t) :
    t.app.messages call = s.app.messages call := by
  refine (h.invariant (I := fun t => RowsInRange t.app ∧
    t.app.messages call = s.app.messages call ∧ s.app.itemCount call.vc ≤ t.app.itemCount call.vc)
    ⟨hrows, rfl, le_rfl⟩ fun {t l u} ⟨hrows, hsame, hle⟩ ⟨hdie, hstays⟩ hstep => ?_).2.1
  have hbehind : Behind t.app call := by
    rw [Behind, hsame]
    exact Nat.lt_of_lt_of_le hbehind hle
  have hu := hstays u hstep
  obtain ⟨hsame', hle'⟩ := messages_of_shows hrows hu hdie hbehind
    (shows_of_transition (transition_of_step hstep))
  exact ⟨hu, hsame'.trans hsame, hle.trans hle'⟩

/-- A step that breaks the condition leaves an observer behind. -/
theorem InTime.exists_behind (h : InTime s) (hl : ¬ Abreast s l)
    (hs : Transition (program jpegData) s l s') :
    RowsInRange s'.app ∧
      ∃ call, (∃ cb ∈ s'.pending call.vc.client, cb.call? = some call) ∧ Behind s'.app call := by
  have hnone : deliveryIn s l = none := by
    cases l with
    | press => rfl
    | run | commit | serve | die => exact absurd trivial hl
  refine ⟨h.rows.step (shows_of_transition hs) (by simp [hnone]), ?_⟩
  cases hs with
  | @press a e c app cmds hkey hact =>
    simp only [program_act, act] at hact
    split at hact
    · cases hact
    cases a with
    | viewDidAppear vc =>
      cases hact
      obtain ⟨hu, hlt⟩ := Classical.not_imp.1 hl
      obtain ⟨uid, hu⟩ := Option.isSome_iff_exists.1 hu
      have hnil : s.app.messages ⟨vc, e.key⟩ = [] := not_not.1 fun hne => hkey (h.named _ hne)
      refine ⟨⟨vc, e.key⟩, ⟨.messageAdded ⟨vc, e.key⟩,
        mem_pending_of_pressed (.inr ⟨rfl, ?_⟩), rfl⟩, ?_⟩
      · simp [observUserMessages, hu, Cmd.completion, Ask.cb]
      · simpa [Behind, hnil] using hlt
    | reloadCollection vc =>
      simp only at hact
      split at hact
      · cases hact
      cases hact
      simp only [Abreast, not_forall, not_le] at hl
      obtain ⟨cb, hcb, call, hcall, rfl, hlt⟩ := hl
      refine ⟨call, ⟨cb, mem_pending_of_pressed (.inl hcb), hcall⟩, ?_⟩
      have hsame := sameScreen_reloadAndScroll call.vc s.app
      rw [State.pressed_app, Behind, hsame.messages, hsame.itemCount]
      simpa [App.reload] using hlt
    | sendBtnPressed | pickImage | timerFired | signOut | signIn => exact absurd trivial hl
  | run | apply | reject | serve | die => exact absurd trivial hl

/-- In a run that meets the condition, every row has its message. After a step that breaks it, an
observer is on its way or attached that delivers no message while its process lives and every row
has one. -/
theorem rowsInRange_of_reaches (hi : Initial s₀) (hs : s₀.app.Launched)
    (h : Reaches (step (program jpegData)) Abreast s₀ s) :
    RowsInRange s.app ∧ ∀ l s', step (program jpegData) s l = some s' → ¬ Abreast s l →
      ∃ call, (∃ cb ∈ s'.pending call.vc.client, cb.call? = some call) ∧
        ∀ t, Reaches (step (program jpegData)) (StaysInRange jpegData call.vc.client) s' t →
          t.app.messages call = s'.app.messages call := by
  have hin : InTime s := h.invariant (.initial hi hs) fun hI hl hstep =>
    hI.step hl (transition_of_step hstep)
  refine ⟨hin.rows, fun l s' hstep hl => ?_⟩
  obtain ⟨hrows, call, hcb, hbehind⟩ := hin.exists_behind hl (transition_of_step hstep)
  exact ⟨call, hcb, fun t ht => messages_of_behind hrows hbehind ht⟩

theorem showBoth_abreast :
    (exec (step (program fun _ => none)) Abreast start (exchange ++ showBoth)).isSome = true := by
  decide +kernel

theorem rowsInRange_bothShown :
    RowsInRange ((exec (step (program fun _ => none)) Abreast start (exchange ++ showBoth)).get
      showBoth_abreast).app :=
  (rowsInRange_of_reaches start_start.initial start_launched
    (.of_exec (Option.some_get _).symm)).1

/-! ## A view controller that appears again -/

/-- Alice has seen her two messages and comes back to the conversation. The observer that is
attached then delivers the first of them again. -/
def comeBack : List MLabel := [
  .press (.viewDidAppear aliceVC) ⟨"a1", 16⟩, .serve 0 true, .run 0 ⟨"k13", 17⟩, .serve 0 true,
  .run 1 ⟨"k14", 18⟩]

theorem comeBack_runs :
    (exec (step (program fun _ => none)) Delivers bothShown comeBack).isSome = true := by
  decide +kernel

/-- The state after the first message has been delivered again. -/
def cameBack : MState :=
  (exec (step (program fun _ => none)) Delivers bothShown comeBack).get comeBack_runs

theorem cameBack_reached : Reaches (step (program fun _ => none)) Delivers start cameBack :=
  bothShown_reached.trans (.of_exec (Option.some_get _).symm)

/-- The collection view has counted two rows and there is one message. -/
theorem not_rowsInRange : ¬ ∀ s₀ s, Initial s₀ → s₀.app.Launched →
    Reaches (step (program fun _ => none)) Delivers s₀ s → RowsInRange s.app := by
  intro h
  have hrow := h start cameBack start_start.initial start_launched cameBack_reached aliceVC 1
  revert hrow
  decide +kernel

end FLChat.Messages
