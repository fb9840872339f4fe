import FLChat.Sessions.OneAccount

/-!
# The runs of the friends

Where every device keeps its account, every run of the process is one of the friends, whatever
profiles are changed and searched meanwhile (`exists_friends_run`): the same requests and friendships
are in the database, the same writes, reads and observers are under way, and the lists show the same
users. A device that is trapped loses its chains, as one whose callbacks are never called.
-/

namespace FLChat.Sessions

open Realtime
open FLChat.Messages (Data)
open FLChat.Accounts (UID Dict Device)
open FLChat.Friends (Call UserParams Users)

variable {P : Platform} {c c' : Client} {app app' : App} {cmds : List Command} {s₀ s : SState}
  {e : Env} {owner : Client → UID} {t : Realtime.Tree Loc}
  {s' : Friends.FState}

/-! ## Writes -/

theorem friendWrite_eq_some {w : Write Loc Client Cb}
    {w' : Write Friends.Loc Friends.Client Friends.Cb} (h : friendWrite owner w = some w') :
    w'.client = client owner w.client ∧ w'.completion = w.completion.bind friendCb ∧
      w.op = friendOp w'.op := by
  unfold friendWrite at h
  split at h
  · cases h
  · next hop =>
    cases h
    exact ⟨rfl, rfl, hop⟩
  · next hop =>
    cases h
    exact ⟨rfl, rfl, hop⟩

theorem friendWrite_eq_none {w : Write Loc Client Cb} (h : friendWrite owner w = none) :
    ∃ directory, w.op = .update .users directory := by
  unfold friendWrite at h
  split at h
  · next hop => exact ⟨_, hop⟩
  · cases h
  · cases h

theorem friendTree_apply (op : Op Friends.Loc) :
    friendTree ((friendOp op).apply t) = op.apply (friendTree t) := by
  cases op with
  | update l v => exact friendTree_update
  | remove p => exact friendTree_remove

theorem friendTask_ack (w : Write Loc Client Cb) (ok : Bool) : (w.ack ok).filterMap
    (friendTask owner) =
      (w.completion.bind friendCb).toList.map fun cb => ⟨client owner w.client, cb, .acked ok⟩ := by
  obtain ⟨c, op, completion⟩ := w
  cases completion with
  | none => rfl
  | some cb => cases cb <;> rfl

/-! ## Events -/

theorem friendTask_childEvents (h : Underway (fun _ => Known) s) (op : Op Friends.Loc)
    (htree : s'.tree = friendTree s.tree)
    (hobs : s'.childObs = s.childObs.filterMap (friendChildObs owner)) :
    (s.childEvents (friendOp op)).filterMap (friendTask owner) = s'.childEvents op := by
  cases op with
  | remove p => rfl
  | update l v =>
    change (s.childObs.filterMap _).filterMap _ = s'.childObs.filterMap _
    rw [hobs, List.filterMap_filterMap, List.filterMap_filterMap]
    refine List.filterMap_congr fun o ho => ?_
    obtain ⟨c, p, cb⟩ := o
    cases h.childObs _ ho with
    | @childAdded p uid cb hp =>
      have hchildren : s'.tree.children p = s.tree.children p := by
        rw [htree, children_friendTree hp]
      have hkey : Tree.childKey p (Loc.friend l) = Tree.childKey p l := rfl
      change Option.bind _ _ = _
      simp only [friendChildObs, friendCb, Option.map_some, Option.bind_some]
      rw [hkey, hchildren]
      cases Tree.childKey p l with
      | none => rfl
      | some k =>
        simp only
        split <;> rfl

theorem friendTask_valueEvents (h : Underway (fun _ => Known) s) (op : Op Friends.Loc)
    (htree : s'.tree = friendTree s.tree)
    (hobs : s'.valueObs = s.valueObs.filterMap (friendValueObs owner)) :
    (s.valueEvents (friendOp op)).filterMap (friendTask owner) = s'.valueEvents op := by
  unfold State.valueEvents
  rw [hobs, List.filterMap_filterMap, List.filterMap_filterMap]
  refine List.filterMap_congr fun o ho => ?_
  obtain ⟨c, l, cb⟩ := o
  cases h.valueObs _ ho with
  | @value l uid cb =>
    have htouches : (friendOp op).touches (.friend l) = op.touches l := by
      cases op with
      | update l' v => exact decide_eq_decide.2 (by simp)
      | remove p => rfl
    have hlookup : (op.apply s'.tree).lookup l =
        ((friendOp op).apply s.tree).lookup (.friend l) := by
      rw [htree, ← friendTree_apply, lookup_friendTree]
    simp only [friendValueObs, friendCb, Option.map_some, Option.bind_some]
    rw [htouches, hlookup]
    split <;> rfl

/-- A write to a profile is an event for none of the friends' observers. -/
theorem friendTask_events_users (h : Underway (fun _ => Known) s) (directory : Directory) :
    (s.childEvents (.update .users directory) ++
      s.valueEvents (.update .users directory)).filterMap (friendTask owner) = [] := by
  refine List.filterMap_eq_nil_iff.2 fun τ hτ => ?_
  rcases List.mem_append.1 hτ with hτ | hτ
  · obtain ⟨⟨c, p, cb⟩, ho, l, v, k, he, hkey, -, -⟩ := mem_childEvents.1 hτ
    cases he
    cases h.childObs _ ho with
    | childAdded hp =>
      have hnone : Tree.childKey p Loc.users = none := if_neg (Bool.eq_false_iff.1 hp)
      cases hnone.symm.trans hkey
  · obtain ⟨⟨c, l, cb⟩, ho, htouches, -⟩ := mem_valueEvents.1 hτ
    cases h.valueObs _ ho with
    | value => cases htouches

/-! ## Requests -/

/-- The requests of the friends. -/
inductive FriendAsk : Ask Loc Cb Data → Ask Friends.Loc Friends.Cb Unit → Prop
  | childAdded {p uid cb} : FriendAsk (.childAdded p (.friend uid cb)) (.childAdded p cb)
  | value {l uid cb} : FriendAsk (.value (.friend l) (.friend uid cb)) (.value l cb)
  | single {l uid cb} : FriendAsk (.single (.friend l) (.friend uid cb)) (.single l cb)

theorem friendAsk_eq_some {a : Ask Loc Cb Data} {x : Friends.Client × Ask Friends.Loc Friends.Cb Unit}
    (h : friendAsk owner (c, a) = some x) : x.1 = client owner c ∧ FriendAsk a x.2 := by
  unfold friendAsk at h
  split at h
  · next he =>
    cases he
    cases h
    exact ⟨rfl, .childAdded⟩
  · next he =>
    cases he
    cases h
    exact ⟨rfl, .value⟩
  · next he =>
    cases he
    cases h
    exact ⟨rfl, .single⟩
  · cases h

theorem friendTask_eq_some {τ : Task Loc Client Cb} {τ' : Task Friends.Loc Friends.Client Friends.Cb}
    (h : friendTask owner τ = some τ') : τ'.client = client owner τ.client := by
  unfold friendTask at h
  split at h <;> cases h
  rfl

/-! ## The friends as a component -/

/-- What the friends rely on. -/
structure Relied (P : Platform) (owner : Client → UID) (s : SState) : Prop where
  underway : Underway (fun _ => Known) s
  account : OneAccount P owner s

theorem beside_of_issues {email : UID → String} {ev : Friends.FEvent} {shown : Friends.App}
    {fc : Friends.Client} {cmd : Friends.Command} (h : Friends.Issues email ev shown fc cmd) :
    Beside cmd := by
  cases h <;> trivial

theorem friends_act {shown : Friends.App} {a : Action} (hI : OneAccount P owner s)
    (ha : a.press.keeps (owner a.client)) (happ : SameLists owner s.app shown)
    (h : (program P).act a e s.app = some (c, app', cmds)) :
    (friendsOf P owner).Follows e c app' cmds shown := by
  obtain ⟨⟨app', cmds⟩, hpress, he⟩ := Option.map_eq_some_iff.1 h
  cases he
  obtain ⟨c, p⟩ := a
  by_cases haccount : ∃ p', p = .account p'
  · obtain ⟨p, rfl⟩ := haccount
    exact friends_accountPress happ (fun hp => ha.1 (congrArg Press.account hp)) hpress
  · have hp : ∀ p', p ≠ .account p' := fun p' hp' => haccount ⟨p', hp'⟩
    exact friends_press happ ((hI.signed c).home (home_of_press hpress hp))
      (fun x hx => hI.others c x (.inr hx)) hp hpress

theorem friends_callback {shown : Friends.App} {τ : Task Loc Client Cb} (hI : OneAccount P owner s)
    (hτ : τ ∈ s.tasks) (happ : SameLists owner s.app shown)
    (h : (program P).handle τ.client e τ.cb τ.input s.app = (app', cmds)) :
    (friendsOf P owner).Follows e τ.client app' cmds shown ∨
      (friendsOf P owner).Runs e τ app' cmds shown := by
  obtain ⟨hu, hbelongs⟩ := hI.pending _ _ (mem_pending_of_task hτ)
  obtain ⟨c, cb, input⟩ := τ
  rcases callbackRan h with ⟨-, rfl, rfl⟩ | ⟨-, hran⟩
  · exact .inl (stays_nil happ)
  cases hran with
  | stored h | url h | profileRead h => exact .inl (friends_accountCallback happ h)
  | usersRead => exact .inl (stays_nil happ.usersRead)
  | ignored => exact .inl (stays_nil happ)
  | @friend uid cb _ _ _ h =>
    obtain ⟨huid, hcall⟩ := hbelongs
    obtain rfl : uid = owner c := huid
    rcases liftInput_cases input with ⟨input, rfl⟩ | ⟨directory, rfl⟩
    · obtain ⟨next, cmds', hhandle, rfl, hnext⟩ := friends_handle happ hu hcall h
      have hbeside : ∀ cmd ∈ cmds', Beside cmd := by
        intro cmd hcmd
        have hmem : cmd ∈ (Friends.handle P.email (client owner c) cb input shown).2 := by
          rw [hhandle]
          exact hcmd
        exact beside_of_issues (Friends.issues_of_handle (e := e) hmem)
      refine .inr (.runs ⟨client owner c, cb, input⟩ next cmds' ?_ hhandle
        (carries_friendCommands hbeside) hnext)
      change friendTask owner _ = _
      simp only [friendTask, friendCb, friendInput_liftInput]
    · rw [friendCallback_users] at h
      cases h
      exact .inl (stays_nil happ)

/-- The friends are a component of the process, where every device keeps its account. -/
def friendComponent (P : Platform) (owner : Client → UID) : Component (program P)
    (Friends.program P.email) (Relied P owner) fun a => a.press.keeps (owner a.client) where
  toProjection := friendsOf P owner
  client_inj := client_injective
  write_client hw := (friendWrite_eq_some hw).1
  ask_client hx := (friendAsk_eq_some hx).1
  task_client hτ := friendTask_eq_some hτ
  childObs_client {o o'} ho := by
    obtain ⟨cb, -, rfl⟩ := Option.map_eq_some_iff.1 ho
    rfl
  valueObs_client {o o'} ho := by
    obtain ⟨c, l, cb⟩ := o
    cases l with
    | users => cases ho
    | friend l =>
      obtain ⟨cb', -, rfl⟩ := Option.map_eq_some_iff.1 ho
      rfl
  tree_own _ hw := by
    rw [(friendWrite_eq_some hw).2.2]
    exact friendTree_apply _
  tree_other _ _ _ hw := by
    obtain ⟨directory, hop⟩ := friendWrite_eq_none hw
    rw [hop]
    exact friendTree_update_users
  ack_own {w w'} ok hw := by
    obtain ⟨hclient, hcompletion, -⟩ := friendWrite_eq_some hw
    refine (friendTask_ack w ok).trans ?_
    rw [Write.ack, hclient, hcompletion]
  ack_other {s w} ok hI hmem hw := by
    obtain ⟨directory, hop⟩ := friendWrite_eq_none hw
    have hknown := hI.underway.writes w hmem
    rw [hop] at hknown
    have hnone : w.completion = none := by
      generalize w.completion = completion at hknown
      cases hknown
      rfl
    rw [Write.ack, hnone]
    rfl
  events_own {s s' w w'} hI h _ hw := by
    rw [(friendWrite_eq_some hw).2.2, List.filterMap_append]
    exact congrArg₂ (· ++ ·) (friendTask_childEvents hI.underway w'.op h.tree h.childObs)
      (friendTask_valueEvents hI.underway w'.op h.tree h.valueObs)
  events_other {s w} hI _ hw := by
    obtain ⟨directory, hop⟩ := friendWrite_eq_none hw
    rw [hop]
    exact friendTask_events_users hI.underway directory
  store_own ok o ha := by cases (friendAsk_eq_some ha).2 <;> cases ok <;> rfl
  store_other _ _ _ _ _ := rfl
  observers_own {c a c' a'} ha := by
    obtain ⟨hclient, hkind⟩ := friendAsk_eq_some ha
    cases hclient
    cases hkind <;> exact ⟨rfl, rfl⟩
  observers_other {s c a} hI hmem ha := by
    cases hI.underway.asks _ _ hmem <;> first | exact ⟨rfl, rfl⟩ | cases ha
  answer_own {s s' c a c' a'} ok hI h hview hmem ha := by
    obtain ⟨hclient, hkind⟩ := friendAsk_eq_some ha
    cases hclient
    have hknown := hI.underway.asks _ _ hmem
    cases hkind with
    | @childAdded p uid cb =>
      cases hknown with
      | childAdded hp =>
        have hchildren : s'.tree.children p = s.tree.children p := by
          rw [h.tree]
          exact children_friendTree hp
        rw [State.answer, State.answer, hchildren, List.filterMap_map]
        exact congrFun List.filterMap_eq_map _
    | @value l uid cb | @single l uid cb =>
      have hview : s'.view ⟨owner c, c⟩ = friendTree (s.view c) := hview
      rw [State.answer, State.answer, hview, lookup_friendTree]
      rfl
  answer_other {s c a} ok hI hmem ha := by
    cases hI.underway.asks _ _ hmem <;> first | rfl | cases ha
  act hI ha hsees h := friends_act hI.account ha hsees h
  handle hI hsees hτ h := friends_callback hI.account hτ hsees h
  die c _ hsees := hsees.die c

/-! ## Runs -/

/-- What the friends see of a state. -/
def friendState (owner : Client → UID) (s : SState) : Friends.FState where
  tree := friendTree s.tree
  objects _ := none
  writes := s.writes.filterMap (friendWrite owner)
  asks := s.asks.filterMap (friendAsk owner)
  tasks := s.tasks.filterMap (friendTask owner)
  childObs := s.childObs.filterMap (friendChildObs owner)
  valueObs := s.valueObs.filterMap (friendValueObs owner)
  issued := s.issued
  log := []
  app := friendApp s.app

theorem shows_friendState (s : SState) : (friendsOf P owner).Shows s (friendState owner s) where
  tree := rfl
  objects := rfl
  writes := rfl
  asks := rfl
  childObs := rfl
  valueObs := rfl
  issued := List.Subset.refl _
  tasks := ⟨[], by rw [List.append_nil]; rfl⟩
  sees := sameLists_friendApp

/-- Every device keeps its account, and nothing fails where the run is `reliable`. -/
def Keeps (owner : Client → UID) (reliable : Bool) (s : SState) (l : SLabel) : Prop :=
  KeepsAccount owner s l ∧ (reliable = true → l.succeeds = true)

instance (reliable : Bool) (s : SState) : DecidablePred (Keeps owner reliable s) := fun l =>
  inferInstanceAs (Decidable (KeepsAccount owner s l ∧ (reliable = true → l.succeeds = true)))

/-- Where every device keeps its account, every run of the process is one of the friends, in which
nothing fails if nothing does in the process. -/
theorem exists_friends_run {reliable : Bool} (hs : Launched owner s₀)
    (h : Reaches (step (program P)) (Keeps owner reliable) s₀ s) :
    ∃ s', Reaches (step (Friends.program P.email)) (fun _ l => reliable = true → l.succeeds = true)
        (friendState owner s₀) s' ∧
      (friendsOf P owner).Mirrors s s' ∧ SameLists owner s.app s'.app := by
  obtain ⟨s', hrun, hshows⟩ : ∃ s', Reaches (step (Friends.program P.email))
      (fun _ l => reliable = true → l.succeeds = true) (friendState owner s₀) s' ∧
      (friendsOf P owner).Shows s s' := (friendComponent P owner).reaches
    (fun u hu => ⟨underway_of_reaches hs.start.initial hu,
      oneAccount_of_reaches hs (hu.mono fun _ _ hl => hl.1)⟩)
    (fun _ _ _ hl => hl.1) (fun _ _ _ _ _ hl hl' hreliable => hl'.succeeds (hl.2 hreliable))
    (shows_friendState s₀) h
  exact ⟨s', hrun, hshows.toMirrors, hshows.sees⟩

/-- Alice's device and Bob's. -/
def aliceAndBob : Client → UID
  | 0 => "alice"
  | _ => "bob"

theorem launched_start : Launched aliceAndBob start where
  start := start_start
  signed _ := ⟨nofun, nofun, nofun⟩

theorem kept_runs : (exec (step (program sdk)) (Keeps aliceAndBob true) start
    (registering ++ asking)).isSome = true := by
  decide +kernel

theorem exists_friends_run_asking : ∃ s', Reaches (step (Friends.program sdk.email))
      (fun _ l => true = true → l.succeeds = true) (friendState aliceAndBob start) s' ∧
    (friendsOf sdk aliceAndBob).Mirrors ((exec (step (program sdk)) (Keeps aliceAndBob true) start
      (registering ++ asking)).get kept_runs) s' ∧
    SameLists aliceAndBob ((exec (step (program sdk)) (Keeps aliceAndBob true) start
      (registering ++ asking)).get kept_runs).app s'.app :=
  exists_friends_run launched_start (.of_exec (Option.some_get _).symm)

end FLChat.Sessions
