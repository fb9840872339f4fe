import FLChat.Sessions.Crossing
import FLChat.Sessions.Parts

/-!
# The accounts as a part of the process

What the process does to profiles, pictures and sessions is what `LoginVC`, `HomeVC` and `SettingsVC`
do in the model of the accounts, whatever happens meanwhile among the friends and in the searches.
They share `users` with the search of `AddNewFriendsVC`, the process with every list, and a forced
unwrap of any of them ends it: then the accounts lose what was under way on the device. So every run of
the process is a run of the accounts, with the same profiles and objects, and on every device that
is not trapped the same session, the same singleton and the same screens (`exists_accounts_run`).
-/

namespace FLChat.Sessions

open Realtime
open FLChat.Messages (Data)
open FLChat.Accounts (UID Dict Device)

variable {P : Platform} {c c' : Client} {app app' : App} {cmds : List Command} {s₀ s s' : SState}
  {uid : UID} {e : Env} {acc acc' : Accounts.App} {t : Realtime.Tree Loc}

/-! ## What belongs to the accounts -/

/-- The profiles of the database. -/
def directory (t : Realtime.Tree Loc) : Directory :=
  match t.lookup .users with
  | none => (∅ : Directory)
  | some directory => directory

/-- A write to one profile. -/
def accountWrite (w : Write Loc Client Cb) : Option (Write Accounts.Loc Client Accounts.Cb) :=
  match w.op with
  | .update .users new =>
    match new.entries with
    | [⟨.users uid, userData⟩] => some ⟨w.client, .update (.users uid) userData, none⟩
    | _ => none
  | .update (.friend _) _ | .remove _ => none

def accountAsk :
    Client × Ask Loc Cb Data → Option (Client × Ask Accounts.Loc Accounts.Cb Data)
  | (c, .single .users (.profileRead uid cb)) => some (c, .single (.users uid) cb)
  | (c, .putData p data (.account cb)) => some (c, .putData p data cb)
  | (c, .downloadURL p (.account cb)) => some (c, .downloadURL p cb)
  | _ => none

def accountTask (t : Task Loc Client Cb) : Option (Task Accounts.Loc Client Accounts.Cb) :=
  match t.cb, t.input with
  | .account cb, .stored ok => some ⟨t.client, cb, .stored ok⟩
  | .account cb, .url u => some ⟨t.client, cb, .url u⟩
  | .profileRead uid cb, .value .users directory =>
    some ⟨t.client, cb, .value (.users uid) (directory.bind (Directory.profile · uid))⟩
  | _, _ => none

/-- The devices are the same, but for what a trapped one shows. -/
def SameDevices (app : App) (acc : Accounts.App) : Prop :=
  ∀ c, acc c = app.device c ∨ (app.device c).trapped = true ∧
    (acc c).currentUser = (app.device c).currentUser ∧
    (acc c).isLoggedIn = (app.device c).isLoggedIn

def accountsOf (P : Platform) : Projection (program P) (Accounts.program P.toPlatform) where
  client := id
  tree := directory
  objects := id
  write := accountWrite
  ask := accountAsk
  task := accountTask
  childObs _ := none
  valueObs _ := none
  Sees := SameDevices

namespace SameDevices

theorem halts (h : SameDevices app acc) (hhalts : Halts app app') : SameDevices app' acc := by
  intro c
  rcases hhalts c with he | he
  · rw [he]
    exact h c
  · rw [he]
    rcases h c with h | ⟨-, hu, hlog⟩
    · exact .inr ⟨rfl, by rw [h], by rw [h]⟩
    · exact .inr ⟨rfl, hu, hlog⟩

theorem eq_of_not_trapped (h : SameDevices app acc) (hc : (app.device c).trapped = false) :
    acc c = app.device c := by
  rcases h c with h | ⟨htrapped, -⟩
  · exact h
  · rw [hc] at htrapped
    cases htrapped

theorem setDevice {d d' : Device} (h : SameDevices app acc) (hd : d' = d ∨ d.trapped = true ∧
    d'.currentUser = d.currentUser ∧ d'.isLoggedIn = d.isLoggedIn) :
    SameDevices (app.setDevice c d) (Function.update acc c d') := by
  intro c'
  by_cases hc : c' = c
  · subst hc
    rw [App.setDevice_self, Function.update_self]
    exact hd
  · rw [App.setDevice_ne hc, Function.update_of_ne hc]
    exact h c'

theorem relaunched (h : SameDevices app acc) (c : Client) :
    Accounts.relaunched (acc c) = Accounts.relaunched (app.device c) := by
  rcases h c with h | ⟨-, hu, hlog⟩
  · rw [h]
  · rw [Accounts.relaunched, Accounts.relaunched, hu, hlog]

end SameDevices

/-! ## The tree -/

theorem directory_update (new : Directory) : directory (t.update .users new) =
    if (t.lookup .users).isSome then Directory.updateChildValues new (directory t) else new := by
  unfold directory
  rw [Tree.lookup_update_self, Tree.merged]
  cases t.lookup .users <;> rfl

theorem directory_own {w : Write Loc Client Cb} {w' : Write Accounts.Loc Client Accounts.Cb}
    (hw : accountWrite w = some w') : directory (w.op.apply t) = w'.op.apply (directory t) := by
  unfold accountWrite at hw
  split at hw
  · next new hop =>
    split at hw
    · next uid dict hentries =>
      cases hw
      rw [hop, Op.apply, Op.apply, directory_update, Directory.updateChildValues, hentries]
      split
      · rfl
      · next hnone =>
        have hdirectory : directory t = ∅ := by
          unfold directory
          rw [Option.not_isSome_iff_eq_none.1 hnone]
        rw [hdirectory]
        exact AList.ext hentries
    · cases hw
  · cases hw
  · cases hw

theorem directory_other {w : Write Loc Client Cb} (hknown : Known (.write w.op w.completion))
    (hw : accountWrite w = none) : directory (w.op.apply t) = directory t := by
  obtain ⟨c, op, completion⟩ := w
  cases hknown with
  | profile => cases hw
  | entry =>
    unfold directory
    rw [Op.apply, Tree.lookup_update_ne (by simp)]
  | remove hp =>
    unfold directory
    rw [Op.apply, Tree.lookup_remove, if_neg]
    exact Bool.eq_false_iff.1 hp

/-! ## Commands -/

theorem carries_accountCommands {cmds : List Accounts.Command}
    {user : Option UID}
    (h : ∀ cmd ∈ cmds, Accounts.Issues user cmd) :
    (accountsOf P).Carries c (cmds.map accountCommand) cmds := by
  induction cmds with
  | nil => exact ⟨rfl, rfl⟩
  | cons cmd cmds ih =>
    rw [List.forall_mem_cons] at h
    obtain ⟨hissues, h⟩ := h
    obtain ⟨hwrites, hasks⟩ := ih h
    cases hissues with
    | write => exact ⟨congrArg (List.cons _) hwrites, hasks⟩
    | read | upload | url => exact ⟨hwrites, congrArg (List.cons _) hasks⟩

theorem carries_other (h : Other cmds) : (accountsOf P).Carries c cmds [] := by
  cases h with
  | directory => exact ⟨rfl, rfl⟩
  | @friends uid cmds' h =>
    refine ⟨List.filterMap_eq_nil_iff.2 fun w hw => ?_, List.filterMap_eq_nil_iff.2 fun x hx => ?_⟩
    · obtain ⟨op', completion', -, hop⟩ := write_of_friendCommands (mem_newWrites.1 hw).2
      change accountWrite w = none
      unfold accountWrite
      rw [hop]
      cases op' <;> rfl
    · obtain ⟨c', a⟩ := x
      obtain ⟨cmd, -, he⟩ := List.mem_filterMap.1 (mem_newAsks.1 hx).2
      cases cmd with
      | write op completion => cases op <;> cases he
      | ask b => cases b <;> cases he <;> rfl

theorem follows_of_other (happ : SameDevices app acc) (hhalts : Halts app app')
    (hcmds : Other cmds) : (accountsOf P).Follows e c app' cmds acc :=
  .stays (carries_other hcmds) (happ.halts hhalts)

/-! ## Requests and tasks -/

/-- The requests of the accounts. -/
inductive AccountAsk : Ask Loc Cb Data → Ask Accounts.Loc Accounts.Cb Data → Prop
  | profile {uid cb} : AccountAsk (.single .users (.profileRead uid cb)) (.single (.users uid) cb)
  | putData {p data cb} : AccountAsk (.putData p data (.account cb)) (.putData p data cb)
  | downloadURL {p cb} : AccountAsk (.downloadURL p (.account cb)) (.downloadURL p cb)

theorem accountAsk_eq_some {a : Ask Loc Cb Data} {a' : Ask Accounts.Loc Accounts.Cb Data}
    (h : accountAsk (c, a) = some (c', a')) : c' = c ∧ AccountAsk a a' := by
  unfold accountAsk at h
  split at h
  · next he =>
    cases he
    cases h
    exact ⟨rfl, .profile⟩
  · next he =>
    cases he
    cases h
    exact ⟨rfl, .putData⟩
  · next he =>
    cases he
    cases h
    exact ⟨rfl, .downloadURL⟩
  · cases h

theorem accountWrite_eq_some {w : Write Loc Client Cb}
    {w' : Write Accounts.Loc Client Accounts.Cb} (h : accountWrite w = some w') :
    w'.client = w.client ∧ w'.completion = none := by
  unfold accountWrite at h
  split at h
  · split at h <;> cases h
    exact ⟨rfl, rfl⟩
  · cases h
  · cases h

theorem accountTask_acked {cb : Cb} {ok : Bool} : accountTask ⟨c, cb, .acked ok⟩ = none := by
  cases cb <;> rfl

theorem accountTask_childAdded {cb : Cb} {key : String} :
    accountTask ⟨c, cb, .childAdded key⟩ = none := by
  cases cb <;> rfl

theorem accountTask_friend {cb : Cb} {l : Friends.Loc} {v : Option (Val l)} :
    accountTask ⟨c, cb, .value (.friend l) v⟩ = none := by
  cases cb <;> rfl

theorem accountTask_ack {w : Write Loc Client Cb} {ok : Bool} :
    (w.ack ok).filterMap accountTask = [] := by
  refine List.filterMap_eq_nil_iff.2 fun τ hτ => ?_
  obtain ⟨cb, -, rfl⟩ := mem_ack.1 hτ
  exact accountTask_acked

/-! ## Steps -/

theorem accounts_act {a : Action} (happ : SameDevices app acc)
    (h : (program P).act a e app = some (c, app', cmds)) :
    (accountsOf P).Follows e c app' cmds acc := by
  obtain ⟨⟨app', cmds⟩, hpress, he⟩ := Option.map_eq_some_iff.1 h
  cases he
  obtain ⟨c, p⟩ := a
  by_cases hp : ∃ p', p = .account p'
  · obtain ⟨p, rfl⟩ := hp
    obtain ⟨⟨d, cmds'⟩, hacc, he⟩ := Option.map_eq_some_iff.1 hpress
    have htrapped : (app.device c).trapped = false := by
      unfold Accounts.press at hacc
      split at hacc
      · cases hacc
      · next htrapped => exact Bool.eq_false_iff.2 htrapped
    cases he
    refine .presses ⟨c, p⟩ (Function.update acc c d) cmds' ?_ ?_ ?_
    · rw [Accounts.program_act, happ.eq_of_not_trapped htrapped, hacc]
      rfl
    · exact carries_accountCommands (Accounts.pressed_of_press hacc).issues
    · have hset := happ.setDevice (c := c) (d := d) (.inl rfl)
      split
      · exact hset
      · exact hset
  · obtain ⟨hhalts, hother⟩ := press_other hpress fun p' hp' => hp ⟨p', hp'⟩
    exact follows_of_other happ hhalts hother

theorem accounts_callback {cb : Accounts.Cb} {input : Input Accounts.Loc}
    (happ : SameDevices app acc) (htrapped : (app.device c).trapped = false)
    (h : accountCallback P c cb input app = (app', cmds)) :
    ∃ next cmds', (Accounts.program P.toPlatform).handle c e cb input acc = (next, cmds') ∧
      (accountsOf P).Carries c cmds cmds' ∧ SameDevices app' next := by
  unfold accountCallback at h
  obtain ⟨d, cmds', hcall⟩ : ∃ d cmds',
      Accounts.callback P.toPlatform cb input (app.device c) = (d, cmds') := ⟨_, _, rfl⟩
  rw [hcall] at h
  cases h
  refine ⟨Function.update acc c d, cmds', ?_, ?_, happ.setDevice ?_⟩
  · rw [Accounts.program_handle, happ.eq_of_not_trapped htrapped, hcall]
  · exact carries_accountCommands (Accounts.called_of_callback hcall).issues
  · -- the picture that does not parse traps the device in the process alone
    split
    · exact .inr ⟨rfl, rfl, rfl⟩
    · exact .inl rfl

theorem accounts_handle {τ : Task Loc Client Cb} (happ : SameDevices app acc)
    (h : (program P).handle τ.client e τ.cb τ.input app = (app', cmds)) :
    (accountsOf P).Follows e τ.client app' cmds acc ∨ (accountsOf P).Runs e τ app' cmds acc := by
  obtain ⟨c, cb, input⟩ := τ
  rcases callbackRan h with ⟨-, rfl, rfl⟩ | ⟨htrapped, hran⟩
  · exact .inl (follows_of_other happ .refl other_nil)
  cases hran with
  | stored h | url h | profileRead h =>
    obtain ⟨next, cmds', hrun, hcmds, hsees⟩ := accounts_callback (e := e) happ htrapped h
    exact .inr (.runs _ next cmds' rfl hrun hcmds hsees)
  | usersRead => exact .inl (follows_of_other happ .usersRead other_nil)
  | friend h =>
    obtain ⟨hhalts, hother⟩ := friendCallback_other h
    exact .inl (follows_of_other happ hhalts hother)
  | ignored => exact .inl (follows_of_other happ .refl other_nil)

/-- No event is of the accounts: they observe nothing. -/
theorem accountTask_events (h : Underway (fun _ => Known) s) (op : Op Loc) :
    (s.childEvents op ++ s.valueEvents op).filterMap accountTask = [] := by
  refine List.filterMap_eq_nil_iff.2 fun τ hτ => ?_
  rcases List.mem_append.1 hτ with hτ | hτ
  · obtain ⟨o, -, l, v, k, -, -, -, rfl⟩ := mem_childEvents.1 hτ
    exact accountTask_childAdded
  · obtain ⟨o, ho, -, rfl⟩ := mem_valueEvents.1 hτ
    obtain ⟨c, l, cb⟩ := o
    cases h.valueObs _ ho
    exact accountTask_friend

/-- The accounts are a component of the process. -/
def accountComponent (P : Platform) :
    Component (program P) (Accounts.program P.toPlatform) (Underway fun _ => Known) fun _ => True where
  toProjection := accountsOf P
  client_inj _ _ h := h
  write_client hw := (accountWrite_eq_some hw).1
  ask_client hx := (accountAsk_eq_some hx).1
  task_client {τ τ'} hτ := by
    change accountTask τ = some τ' at hτ
    unfold accountTask at hτ
    split at hτ <;> cases hτ <;> rfl
  childObs_client h := by cases h
  valueObs_client h := by cases h
  tree_own _ hw := directory_own hw
  tree_other _ hI hmem hw := directory_other (hI.writes _ hmem) hw
  ack_own {w w'} ok hw := by
    have hack : w'.ack ok = [] := by rw [Write.ack, (accountWrite_eq_some hw).2]; rfl
    rw [hack]
    exact accountTask_ack
  ack_other _ _ _ _ := accountTask_ack
  events_own {s s' w w'} hI h hmem hw := by
    have hchild : s'.childEvents w'.op = [] := by
      have hobs : s'.childObs = [] := h.childObs.trans (List.filterMap_eq_nil_iff.2 fun _ _ => rfl)
      cases hop : w'.op with
      | update => simp [State.childEvents, hobs]
      | remove => rfl
    have hvalue : s'.valueEvents w'.op = [] := by
      have hobs : s'.valueObs = [] := h.valueObs.trans (List.filterMap_eq_nil_iff.2 fun _ _ => rfl)
      simp [State.valueEvents, hobs]
    rw [hchild, hvalue]
    exact accountTask_events hI w.op
  events_other {s w} hI _ _ := accountTask_events hI w.op
  store_own ok o ha := by cases (accountAsk_eq_some ha).2 <;> cases ok <;> rfl
  store_other {s c a} ok o hI hmem ha := by
    cases hI.asks _ _ hmem <;> first | rfl | cases ha
  observers_own ha := by cases (accountAsk_eq_some ha).2 <;> exact ⟨rfl, rfl⟩
  observers_other _ _ _ :=
    ⟨List.filterMap_eq_nil_iff.2 fun _ _ => rfl, List.filterMap_eq_nil_iff.2 fun _ _ => rfl⟩
  answer_own {s s' c a c' a'} ok hI h hview hmem ha := by
    obtain ⟨rfl, hkind⟩ := accountAsk_eq_some ha
    cases hkind with
    | @profile uid cb =>
      have hview : s'.view c' = directory (s.view c') := hview
      have hprofile : (s'.view c').lookup (.users uid) =
          ((s.view c').lookup .users).bind (Directory.profile · uid) := by
        rw [hview, directory]
        cases (s.view c').lookup .users <;> rfl
      rw [State.answer, State.answer, hprofile]
      rfl
    | putData => rfl
    | @downloadURL p cb =>
      have hobjects : s'.objects = s.objects := h.objects
      rw [State.answer, State.answer, hobjects]
      rfl
  answer_other {s c a} ok hI hmem ha := by
    refine List.filterMap_eq_nil_iff.2 fun τ hτ => ?_
    cases hI.asks _ _ hmem with
    | childAdded =>
      obtain ⟨k, -, rfl⟩ := List.mem_map.1 hτ
      rfl
    | value | single | usersRead =>
      cases List.mem_singleton.1 hτ
      rfl
    | profileRead | putData | downloadURL => cases ha
  act _ _ hsees h := accounts_act hsees h
  handle _ hsees _ h := accounts_handle hsees h
  die {s acc} c _ hsees := by
    have hdie := hsees.setDevice (c := c) (d := Accounts.relaunched (s.app.device c)) (.inl rfl)
    change SameDevices (die c s.app) (Function.update acc c (Accounts.relaunched (acc c)))
    rw [hsees.relaunched c]
    exact hdie

/-! ## Runs -/

/-- What the accounts see of a state. -/
@[simps] def accountState (s : SState) : Accounts.AState where
  tree := directory s.tree
  objects := s.objects
  writes := s.writes.filterMap accountWrite
  asks := s.asks.filterMap accountAsk
  tasks := s.tasks.filterMap accountTask
  childObs := []
  valueObs := []
  issued := s.issued
  log := []
  app := s.app.device

theorem shows_accountState (s : SState) : (accountsOf P).Shows s (accountState s) where
  tree := rfl
  objects := rfl
  writes := rfl
  asks := rfl
  childObs := (List.filterMap_eq_nil_iff.2 fun _ _ => rfl).symm
  valueObs := (List.filterMap_eq_nil_iff.2 fun _ _ => rfl).symm
  issued := List.Subset.refl _
  tasks := ⟨[], by rw [List.append_nil]; rfl⟩
  sees _ := .inl rfl

/-- Every run of the process is one of the accounts, in which nothing fails if nothing does in the
process (`reliable`). -/
theorem exists_accounts_run {reliable : Bool} (hs : Initial s₀)
    (h : Reaches (step (program P)) (fun _ l => reliable = true → l.succeeds = true) s₀ s) :
    ∃ s', Reaches (step (Accounts.program P.toPlatform))
        (fun _ l => reliable = true → l.succeeds = true) (accountState s₀) s' ∧
      (accountsOf P).Mirrors s s' ∧ SameDevices s.app s'.app := by
  obtain ⟨s', hrun, hshows⟩ : ∃ s', Reaches (step (Accounts.program P.toPlatform))
      (fun _ l => reliable = true → l.succeeds = true) (accountState s₀) s' ∧
      (accountsOf P).Shows s s' := (accountComponent P).reaches
    (fun u hu => underway_of_reaches hs hu) (fun _ _ _ _ => trivial)
    (fun _ _ _ _ _ hl hl' hreliable => hl'.succeeds (hl hreliable)) (shows_accountState s₀) h
  exact ⟨s', hrun, hshows.toMirrors, hshows.sees⟩

theorem asked_runs : (exec (step (program sdk)) (fun _ l => true = true → l.succeeds = true) start
    (registering ++ asking)).isSome = true := by
  decide +kernel

/-- Alice and Bob have registered, and Bob has asked Alice. -/
def asked : SState := (exec (step (program sdk)) (fun _ l => true = true → l.succeeds = true) start
  (registering ++ asking)).get asked_runs

theorem exists_accounts_run_asked :
    ∃ s', Reaches (step (Accounts.program sdk.toPlatform))
        (fun _ l => true = true → l.succeeds = true) (accountState start) s' ∧
      (accountsOf sdk).Mirrors asked s' ∧ SameDevices asked.app s'.app :=
  exists_accounts_run start_start.initial (.of_exec (Option.some_get _).symm)

end FLChat.Sessions
