import FLChat.Realtime.History

/-!
# A front end of a program

What the user does is often not yet what the program is asked to do: a text is typed before a button
sends it, and a button does nothing where it is disabled. A front end of `P'` is a program `P` that
keeps such a state next to that of `P'`. Its presses are either its own, which issue nothing and
leave the state of `P'` alone, or presses of `P'`; its callbacks are those of `P'`.

The press of `P'` may take what the front end holds, and what that is follows from what happened
before, so `FrontEnd.press` reads it off the log. Then every run of `P` is a run of `P'` with the
presses as `P'` takes them (`FrontEnd.reaches`): the two have the same database, the same objects and
the same things in flight all along (`FrontEnd.Shows`).
-/

namespace Realtime

variable {Loc Client Cb Blob App App' Action Action' : Type} [Schema Loc]

/-- `P` is a front end of `P'`. `Agrees` relates what `P` holds to what happened. -/
structure FrontEnd (P : Program Loc Client Cb Blob App Action)
    (P' : Program Loc Client Cb Blob App' Action') where
  app : App → App'
  press : List (Event Loc Client Cb Blob Action) → Action → Option Action'
  Agrees : App → List (Event Loc Client Cb Blob Action) → Prop
  act : ∀ {a e s log c t cmds}, Agrees s log → P.act a e s = some (c, t, cmds) →
    ∀ b, press log a = some b → P'.act b e (app s) = some (c, app t, cmds)
  own : ∀ {a e s log c t cmds}, Agrees s log → P.act a e s = some (c, t, cmds) →
    press log a = none → cmds = [] ∧ app t = app s
  handle : ∀ {c e cb input s t cmds}, P.handle c e cb input s = (t, cmds) →
    P'.handle c e cb input (app s) = (app t, cmds)
  die : ∀ c s, app (P.die c s) = P'.die c (app s)
  agrees_pressed : ∀ {a e s log c t cmds}, Agrees s log → P.act a e s = some (c, t, cmds) →
    Agrees t (.pressed a e :: log)
  agrees_ran : ∀ {t e s log u cmds}, Agrees s log → P.handle t.client e t.cb t.input s = (u, cmds) →
    Agrees u (.ran t e :: log)
  agrees_resolved : ∀ {s log} c op ok, Agrees s log → Agrees s (.resolved c op ok :: log)
  agrees_served : ∀ {s log} c a ok, Agrees s log → Agrees s (.served c a ok :: log)
  agrees_died : ∀ {s log} c, Agrees s log → Agrees (P.die c s) (.died c :: log)

namespace FrontEnd

variable {P : Program Loc Client Cb Blob App Action} {P' : Program Loc Client Cb Blob App' Action'}
  (F : FrontEnd P P')

/-- The step of `P'` that a step of `P` is, or `none` where `P` does something of its own. -/
def label (log : List (Event Loc Client Cb Blob Action)) :
    Label Client Action → Option (Label Client Action')
  | .press a e => (F.press log a).map (.press · e)
  | .run i e => some (.run i e)
  | .commit i ok => some (.commit i ok)
  | .serve i ok => some (.serve i ok)
  | .die c => some (.die c)

/-- What happened, as `P'` has it. -/
def shown : List (Event Loc Client Cb Blob Action) → List (Event Loc Client Cb Blob Action')
  | [] => []
  | .pressed a e :: log => ((F.press log a).map (.pressed · e)).toList ++ shown log
  | .ran t e :: log => .ran t e :: shown log
  | .resolved c op ok :: log => .resolved c op ok :: shown log
  | .served c a ok :: log => .served c a ok :: shown log
  | .died c :: log => .died c :: shown log

/-- A press is where it was. -/
theorem mem_shown {since before : List (Event Loc Client Cb Blob Action)} {a : Action} {e : Env}
    {b : Action'} (h : F.press before a = some b) :
    .pressed b e ∈ F.shown (since ++ .pressed a e :: before) := by
  induction since with
  | nil => simp [shown, h]
  | cons ev since ih =>
    cases ev with
    | pressed => exact List.mem_append_right _ ih
    | ran | resolved | served | died => exact List.mem_cons_of_mem _ ih

/-- `s'` is what `s` is to `P'`. -/
structure Shows (s : State Loc Client Cb Blob App Action)
    (s' : State Loc Client Cb Blob App' Action') : Prop where
  tree : s'.tree = s.tree
  objects : s'.objects = s.objects
  writes : s'.writes = s.writes
  asks : s'.asks = s.asks
  tasks : s'.tasks = s.tasks
  childObs : s'.childObs = s.childObs
  valueObs : s'.valueObs = s.valueObs
  issued : s'.issued ⊆ s.issued
  log : s'.log = F.shown s.log
  app : s'.app = F.app s.app
  agrees : F.Agrees s.app s.log

variable {F} {s : State Loc Client Cb Blob App Action} {s' : State Loc Client Cb Blob App' Action'}

theorem Shows.quiescent (h : F.Shows s s') (hq : s.Quiescent) : s'.Quiescent where
  writes := h.writes.trans hq.writes
  asks := h.asks.trans hq.asks
  tasks := h.tasks.trans hq.tasks

section Step

variable [DecidableEq Loc] [DecidableEq Client] {t : State Loc Client Cb Blob App Action}
  {l : Label Client Action}

omit [DecidableEq Loc] in
theorem Shows.view (h : F.Shows s s') (c : Client) [DecidableEq Loc] : s'.view c = s.view c := by
  rw [State.view, State.view, h.tree, h.writes]

theorem Shows.answer (h : F.Shows s s') (c : Client) (a : Ask Loc Cb Blob) (ok : Bool) :
    s'.answer c a ok = s.answer c a ok := by
  cases a with
  | childAdded | putData => simp only [State.answer, h.tree]
  | value | single => simp only [State.answer, h.view]
  | downloadURL => simp only [State.answer, h.objects]

/-- A step of the front end is one of the program, or nothing to it. -/
theorem Shows.step (h : F.Shows s s') (hs : Transition P s l t) :
    (∀ l', F.label s.log l = some l' → ∃ t', Realtime.step P' s' l' = some t' ∧ F.Shows t t') ∧
      (F.label s.log l = none → F.Shows t s') := by
  cases hs with
  | @press a e c app cmds hkey hact =>
    have hagrees := F.agrees_pressed h.agrees hact
    have hkey' : e.key ∉ s'.issued := fun hk => hkey (h.issued hk)
    constructor
    · intro l' hl'
      obtain ⟨b, hb, rfl⟩ := Option.map_eq_some_iff.1 hl'
      have hpress := F.act h.agrees hact b hb
      rw [← h.app] at hpress
      refine ⟨_, step_of_transition (.press hkey' hpress), ?_⟩
      exact ⟨h.tree, h.objects, by simp [h.writes], by simp [h.asks], h.tasks, h.childObs,
        h.valueObs, by simpa using List.cons_subset_cons _ h.issued, by simp [shown, hb, h.log], rfl,
        hagrees⟩
    · intro hl
      obtain hb : F.press s.log a = none := Option.map_eq_none_iff.1 hl
      obtain ⟨rfl, happ⟩ := F.own h.agrees hact hb
      exact ⟨h.tree, h.objects, by simp [h.writes, newWrites], by simp [h.asks, newAsks], h.tasks,
        h.childObs, h.valueObs, fun k hk => List.mem_cons_of_mem _ (h.issued hk),
        by simp [shown, hb, h.log], h.app.trans happ.symm, hagrees⟩
  | @run i e τ app cmds hkey ht hrun =>
    have hkey' : e.key ∉ s'.issued := fun hk => hkey (h.issued hk)
    have hrun' := F.handle hrun
    rw [← h.app] at hrun'
    refine ⟨fun l' hl' => ?_, fun hl => by cases hl⟩
    cases hl'
    refine ⟨_, step_of_transition (.run hkey' (by rw [h.tasks]; exact ht) hrun'), ?_⟩
    exact ⟨h.tree, h.objects, by simp [h.writes], by simp [h.asks], by simp [h.tasks], h.childObs,
      h.valueObs, by simpa using List.cons_subset_cons _ h.issued, by simp [shown, h.log], rfl,
      F.agrees_ran h.agrees hrun⟩
  | @apply i w hw hfirst =>
    refine ⟨fun l' hl' => ?_, fun hl => by cases hl⟩
    cases hl'
    have hfirst' : s'.FirstOfClient i w.client := by
      rwa [State.FirstOfClient, h.writes]
    refine ⟨_, step_of_transition (.apply (by rw [h.writes]; exact hw) hfirst'), ?_⟩
    refine ⟨by simp [h.tree], h.objects, by simp [h.writes], h.asks, ?_, h.childObs, h.valueObs,
      h.issued, by simp [shown, h.log], h.app, F.agrees_resolved _ _ _ h.agrees⟩
    have hchild : s'.childEvents w.op = s.childEvents w.op := by
      cases w.op with
      | update => simp only [State.childEvents, h.childObs, h.tree]
      | remove => rfl
    have hvalue : s'.valueEvents w.op = s.valueEvents w.op := by
      simp only [State.valueEvents, h.valueObs, h.tree]
    rw [State.applied_tasks, State.applied_tasks, h.tasks, hchild, hvalue]
  | @reject i w hw hfirst =>
    refine ⟨fun l' hl' => ?_, fun hl => by cases hl⟩
    cases hl'
    have hfirst' : s'.FirstOfClient i w.client := by
      rwa [State.FirstOfClient, h.writes]
    refine ⟨_, step_of_transition (.reject (by rw [h.writes]; exact hw) hfirst'), ?_⟩
    exact ⟨h.tree, h.objects, by simp [h.writes], h.asks, by simp [h.tasks], h.childObs, h.valueObs,
      h.issued, by simp [shown, h.log], h.app, F.agrees_resolved _ _ _ h.agrees⟩
  | @serve i c a ok ha =>
    refine ⟨fun l' hl' => ?_, fun hl => by cases hl⟩
    cases hl'
    refine ⟨_, step_of_transition (.serve (by rw [h.asks]; exact ha)), ?_⟩
    exact ⟨h.tree, congrArg (a.store ok) h.objects, h.writes, by simp [h.asks],
      by simp [h.tasks, h.answer],
      by simp [h.childObs], by simp [h.valueObs], h.issued, by simp [shown, h.log], h.app,
      F.agrees_served _ _ _ h.agrees⟩
  | @die c =>
    refine ⟨fun l' hl' => ?_, fun hl => by cases hl⟩
    cases hl'
    refine ⟨_, step_of_transition .die, ?_⟩
    exact ⟨h.tree, h.objects, by simp [h.writes], by simp [h.asks], by simp [h.tasks],
      by simp [h.childObs], by simp [h.valueObs], h.issued, by simp [shown, h.log],
      by simp [h.app, F.die], F.agrees_died _ h.agrees⟩

/-- Every run of the front end is a run of the program. -/
theorem reaches {ok : State Loc Client Cb Blob App Action → Label Client Action → Prop}
    {ok' : State Loc Client Cb Blob App' Action' → Label Client Action' → Prop}
    (hok : ∀ t t' l l', F.Shows t t' → ok t l → F.label t.log l = some l' → ok' t' l')
    (h₀ : F.Shows s s') (h : Reaches (Realtime.step P) ok s t) :
    ∃ t', Reaches (Realtime.step P') ok' s' t' ∧ F.Shows t t' := by
  induction h with
  | refl => exact ⟨s', .refl, h₀⟩
  | @tail t u l _ hl hstep ih =>
    obtain ⟨t', hrun, ht⟩ := ih
    obtain ⟨hgo, hstay⟩ := ht.step (transition_of_step hstep)
    cases hlabel : F.label t.log l with
    | none => exact ⟨t', hrun, hstay hlabel⟩
    | some l' =>
      obtain ⟨u', hstep', hu⟩ := hgo l' hlabel
      exact ⟨u', hrun.tail (hok _ _ _ _ ht hl hlabel) hstep', hu⟩

end Step

end FrontEnd

end Realtime
