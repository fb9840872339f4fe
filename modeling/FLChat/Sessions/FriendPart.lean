import FLChat.Friends.Calls
import FLChat.Sessions.Parts

/-!
# The friends as a part of the process

What the process does to requests, friendships and lists is what the model of the friends does, on a
device that keeps its account: `friends_press` for the presses, `friends_handle` for the callbacks. To
the friends, a reply of `getUserCredentialsFromDatabase` is what loads the profile of the account.
-/

namespace FLChat.Sessions

open Realtime
open FLChat.Messages (Data)
open FLChat.Accounts (UID Dict Device)
open FLChat.Friends (Call FriendList Side UserParams Users FriendDict)

variable {P : Platform} {c c' : Client} {app app' : App} {cmds : List Command}
  {uid : UID} {e : Env} {owner : Client → UID} {t : Realtime.Tree Loc}

/-! ## The tree -/

/-- An entry of the database that is not a profile. -/
def friendEntry : Sigma (Val : Loc → Type) → Option (Sigma (Val : Friends.Loc → Type))
  | ⟨.users, _⟩ => none
  | ⟨.friend l, v⟩ => some ⟨l, v⟩

section Entries

variable {l : Friends.Loc} {es : List (Sigma (Val : Loc → Type))}

theorem friendEntries_users (v : Val Loc.users) :
    (⟨.users, v⟩ :: es).filterMap friendEntry = es.filterMap friendEntry := rfl

theorem friendEntries_friend (v : Val (Loc.friend l)) :
    (⟨.friend l, v⟩ :: es).filterMap friendEntry = ⟨l, v⟩ :: es.filterMap friendEntry := rfl

theorem mem_keys_friendEntries :
    l ∈ (es.filterMap friendEntry).keys ↔ Loc.friend l ∈ es.keys := by
  induction es with
  | nil => simp
  | cons x es ih =>
    obtain ⟨l', v⟩ := x
    cases l' with
    | users =>
      rw [friendEntries_users, ih]
      simp
    | friend l' =>
      rw [friendEntries_friend, List.keys_cons, List.keys_cons, List.mem_cons, List.mem_cons, ih,
        Loc.friend.injEq]

theorem friendEntries_nodupKeys (h : es.NodupKeys) : (es.filterMap friendEntry).NodupKeys := by
  induction es with
  | nil => exact List.nodupKeys_nil
  | cons x es ih =>
    obtain ⟨hx, hes⟩ := List.nodupKeys_cons.1 h
    obtain ⟨l', v⟩ := x
    cases l' with
    | users => exact ih hes
    | friend l' =>
      rw [friendEntries_friend, List.nodupKeys_cons, mem_keys_friendEntries]
      exact ⟨hx, ih hes⟩

theorem dlookup_friendEntries :
    (es.filterMap friendEntry).dlookup l = es.dlookup (Loc.friend l) := by
  induction es with
  | nil => rfl
  | cons x es ih =>
    obtain ⟨l', v⟩ := x
    cases l' with
    | users =>
      have hne : Loc.friend l ≠ (⟨.users, v⟩ : Sigma (Val : Loc → Type)).1 := nofun
      rw [friendEntries_users, ih, List.dlookup_cons_ne _ _ hne]
    | friend l' =>
      by_cases hl : l = l'
      · subst hl
        rw [friendEntries_friend, List.dlookup_cons_eq, List.dlookup_cons_eq]
      · have hne : Loc.friend l ≠ (⟨.friend l', v⟩ : Sigma (Val : Loc → Type)).1 :=
          fun he => hl (Loc.friend.inj he)
        rw [friendEntries_friend, List.dlookup_cons_ne _ _ hl, List.dlookup_cons_ne _ _ hne, ih]

theorem kerase_friendEntries :
    (es.filterMap friendEntry).kerase l = (es.kerase (.friend l)).filterMap friendEntry := by
  induction es with
  | nil => rfl
  | cons x es ih =>
    obtain ⟨l', v⟩ := x
    cases l' with
    | users =>
      have hne : Loc.friend l ≠ (⟨.users, v⟩ : Sigma (Val : Loc → Type)).1 := nofun
      rw [friendEntries_users, List.kerase_cons_ne hne, friendEntries_users, ih]
    | friend l' =>
      rw [friendEntries_friend]
      by_cases hl : l = l'
      · subst hl
        have heq : Loc.friend l = (⟨.friend l, v⟩ : Sigma (Val : Loc → Type)).1 := rfl
        have heq' : l = (⟨l, v⟩ : Sigma (Val : Friends.Loc → Type)).1 := rfl
        rw [List.kerase_cons_eq heq', List.kerase_cons_eq heq]
      · have hne : Loc.friend l ≠ (⟨.friend l', v⟩ : Sigma (Val : Loc → Type)).1 :=
          fun he => hl (Loc.friend.inj he)
        have hne' : l ≠ (⟨l', v⟩ : Sigma (Val : Friends.Loc → Type)).1 := hl
        rw [List.kerase_cons_ne hne', List.kerase_cons_ne hne, friendEntries_friend, ih]

theorem friendEntries_kerase_users :
    (es.kerase .users).filterMap friendEntry = es.filterMap friendEntry := by
  induction es with
  | nil => rfl
  | cons x es ih =>
    obtain ⟨l', v⟩ := x
    cases l' with
    | users =>
      have heq : Loc.users = (⟨.users, v⟩ : Sigma (Val : Loc → Type)).1 := rfl
      rw [List.kerase_cons_eq heq, friendEntries_users]
    | friend l' =>
      have hne : Loc.users ≠ (⟨.friend l', v⟩ : Sigma (Val : Loc → Type)).1 := nofun
      rw [List.kerase_cons_ne hne, friendEntries_friend, friendEntries_friend, ih]

/-- The profiles are no children of what the friends observe. -/
theorem childKeys_friendEntries {p : Path} (hp : p.isPrefixOf ["users"] = false) :
    (es.filterMap friendEntry).keys.filterMap (Tree.childKey p) =
      es.keys.filterMap (Tree.childKey p) := by
  induction es with
  | nil => rfl
  | cons x es ih =>
    obtain ⟨l', v⟩ := x
    cases l' with
    | users =>
      have hnone : Tree.childKey p Loc.users = none := if_neg (Bool.eq_false_iff.1 hp)
      rw [friendEntries_users, ih, List.keys_cons, List.filterMap_cons_none hnone]
    | friend l' =>
      have hkey : Tree.childKey p (Loc.friend l') = Tree.childKey p l' := rfl
      rw [friendEntries_friend, List.keys_cons, List.keys_cons, List.filterMap_cons,
        List.filterMap_cons, hkey, ih]

end Entries

/-- The entries of the database that are not profiles. -/
def friendTree (t : Realtime.Tree Loc) : Realtime.Tree Friends.Loc :=
  ⟨t.entries.filterMap friendEntry, friendEntries_nodupKeys t.nodupKeys⟩

theorem lookup_friendTree (t : Realtime.Tree Loc) (l : Friends.Loc) :
    (friendTree t).lookup l = t.lookup (.friend l) := dlookup_friendEntries

theorem friendTree_update {l : Friends.Loc} {v : Val l} :
    friendTree (t.update (.friend l) v) = (friendTree t).update l v := by
  have hmerged : (friendTree t).merged l v = t.merged (.friend l) v := by
    unfold Tree.merged
    rw [lookup_friendTree]
    cases t.lookup (.friend l) <;> rfl
  refine AList.ext ?_
  change (⟨Loc.friend l, t.merged (.friend l) v⟩ :: t.entries.kerase (.friend l)).filterMap
    friendEntry = ⟨l, (friendTree t).merged l v⟩ :: (t.entries.filterMap friendEntry).kerase l
  rw [friendEntries_friend, kerase_friendEntries, hmerged]

theorem friendTree_update_users {directory : Directory} :
    friendTree (t.update .users directory) = friendTree t := by
  refine AList.ext ?_
  change (⟨Loc.users, t.merged .users directory⟩ :: t.entries.kerase .users).filterMap
    friendEntry = t.entries.filterMap friendEntry
  rw [List.filterMap_cons_none rfl, friendEntries_kerase_users]

theorem friendTree_remove {p : Path} : friendTree (t.remove p) = (friendTree t).remove p := by
  refine AList.ext ?_
  change (t.entries.filter _).filterMap friendEntry = (t.entries.filterMap friendEntry).filter _
  rw [List.filterMap_filter, List.filter_filterMap]
  refine List.filterMap_congr fun x _ => ?_
  obtain ⟨l, v⟩ := x
  cases l with
  | users => simp [friendEntry]
  | friend l =>
    rw [friendEntry, Option.filter_some]
    rfl

theorem children_friendTree {p : Path} (hp : p.isPrefixOf ["users"] = false) :
    (friendTree t).children p = t.children p :=
  congrArg List.dedup (childKeys_friendEntries hp)

/-! ## What belongs to the friends -/

def friendCb : Cb → Option Friends.Cb
  | .friend _ cb => some cb
  | .account _ | .profileRead .. | .usersRead _ => none

def friendInput : Input Loc → Option (Input Friends.Loc)
  | .acked ok => some (.acked ok)
  | .childAdded key => some (.childAdded key)
  | .value (.friend l) v => some (.value l v)
  | .value .users _ => none
  | .stored ok => some (.stored ok)
  | .url u => some (.url u)

/-- A device with the account that it keeps. -/
def client (owner : Client → UID) (c : Client) : Friends.Client := ⟨owner c, c⟩

def friendWrite (owner : Client → UID) (w : Write Loc Client Cb) :
    Option (Write Friends.Loc Friends.Client Friends.Cb) :=
  match w.op with
  | .update .users _ => none
  | .update (.friend l) v => some ⟨client owner w.client, .update l v, w.completion.bind friendCb⟩
  | .remove p => some ⟨client owner w.client, .remove p, w.completion.bind friendCb⟩

def friendAsk (owner : Client → UID) : Client × Ask Loc Cb Data →
    Option (Friends.Client × Ask Friends.Loc Friends.Cb Unit)
  | (c, .childAdded p (.friend _ cb)) => some (client owner c, .childAdded p cb)
  | (c, .value (.friend l) (.friend _ cb)) => some (client owner c, .value l cb)
  | (c, .single (.friend l) (.friend _ cb)) => some (client owner c, .single l cb)
  | _ => none

def friendTask (owner : Client → UID) (t : Task Loc Client Cb) :
    Option (Task Friends.Loc Friends.Client Friends.Cb) :=
  match friendCb t.cb, friendInput t.input with
  | some cb, some input => some ⟨client owner t.client, cb, input⟩
  | _, _ => none

def friendChildObs (owner : Client → UID) (o : ChildObserver Client Cb) :
    Option (ChildObserver Friends.Client Friends.Cb) :=
  (friendCb o.cb).map fun cb => ⟨client owner o.client, o.path, cb⟩

def friendValueObs (owner : Client → UID) (o : ValueObserver Loc Client Cb) :
    Option (ValueObserver Friends.Loc Friends.Client Friends.Cb) :=
  match o.loc with
  | .users => none
  | .friend l => (friendCb o.cb).map fun cb => ⟨client owner o.client, l, cb⟩

/-- The singleton, without the settings. -/
def friendUser (user : Accounts.User) : Friends.User :=
  ⟨user.name, user.image, user.phone, user.email, user.online⟩

/-- The singletons, the lists and the user of `SelectAllRequestFriendsVC` are the same. -/
structure SameLists (owner : Client → UID) (app : App) (shown : Friends.App) : Prop where
  user : ∀ c, shown.user (client owner c) = friendUser (app.device c).user
  arrayUsers : ∀ c call, call.client = client owner c → shown.arrayUsers call = app.arrayUsers c call
  usersArray : ∀ c list, shown.usersArray (client owner c) list = app.usersArray c list
  selected : ∀ c, shown.selected (client owner c) = app.selected c

def friendsOf (P : Platform) (owner : Client → UID) :
    Projection (program P) (Friends.program P.email) where
  client := client owner
  tree := friendTree
  objects _ _ := none
  write := friendWrite owner
  ask := friendAsk owner
  task := friendTask owner
  childObs := friendChildObs owner
  valueObs := friendValueObs owner
  Sees := SameLists owner

/-- What the friends have in memory. -/
def friendApp (app : App) : Friends.App where
  user c := friendUser (app.device c.device).user
  arrayUsers call := app.arrayUsers call.client.device call
  usersArray c := app.usersArray c.device
  selected c := app.selected c.device
  alerts := []

theorem sameLists_friendApp : SameLists owner app (friendApp app) where
  user _ := rfl
  arrayUsers c call hc := by
    change app.arrayUsers call.client.device call = _
    rw [hc]
    rfl
  usersArray _ _ := rfl
  selected _ := rfl

theorem client_injective : Function.Injective (client owner) := fun _ _ h =>
  congrArg Friends.Client.device h

namespace SameLists

variable {shown : Friends.App}

/-- Only the singletons, the arrays and one selected user count. -/
theorem congr (h : SameLists owner app shown)
    (huser : ∀ c, (app'.device c).user = (app.device c).user)
    (harrays : app'.arrayUsers = app.arrayUsers) (hlists : app'.usersArray = app.usersArray)
    (hselected : app'.selected = app.selected) : SameLists owner app' shown where
  user c := by rw [huser, h.user]
  arrayUsers c call hc := by rw [harrays, h.arrayUsers c call hc]
  usersArray c list := by rw [hlists, h.usersArray]
  selected c := by rw [hselected, h.selected]

theorem setDevice (h : SameLists owner app shown) {d : Device}
    (hd : d.user = (app.device c).user) : SameLists owner (app.setDevice c d) shown := by
  refine h.congr (fun c' => ?_) rfl rfl rfl
  by_cases hc : c' = c
  · subst hc
    rw [App.setDevice_self, hd]
  · rw [App.setDevice_ne hc]

theorem trap (h : SameLists owner app shown) : SameLists owner (app.trap c) shown := h.setDevice rfl

theorem loadImages {users : List Users} (h : SameLists owner app shown) :
    SameLists owner (loadImages P c users app) shown := by
  unfold Sessions.loadImages
  split
  · exact h
  · exact h.trap

theorem alert (h : SameLists owner app shown) {fc : Friends.Client} {title : String} :
    SameLists owner app (shown.alert fc title) := ⟨h.user, h.arrayUsers, h.usersArray, h.selected⟩

/-- The profile of the account is loaded. -/
theorem load (h : SameLists owner app shown) (d : Device) :
    SameLists owner (app.setDevice c d) { shown with
      user := fun c' => if c' = client owner c then friendUser d.user else shown.user c' } where
  user c' := by
    by_cases hc : c' = c
    · subst hc
      rw [App.setDevice_self]
      exact if_pos rfl
    · rw [App.setDevice_ne hc, ← h.user]
      exact if_neg fun he => hc (client_injective he)
  arrayUsers := h.arrayUsers
  usersArray := h.usersArray
  selected := h.selected

theorem select (h : SameLists owner app shown) (users : Users) :
    SameLists owner { app with selected := Function.update app.selected c (some users) }
      { shown with
        selected := fun c' => if c' = client owner c then some users else shown.selected c' } where
  user := h.user
  arrayUsers := h.arrayUsers
  usersArray := h.usersArray
  selected c' := by
    change (if client owner c' = client owner c then some users else shown.selected _) =
      Function.update app.selected c (some users) c'
    by_cases hc : c' = c
    · subst hc
      rw [Function.update_self]
      exact if_pos rfl
    · rw [Function.update_of_ne hc, ← h.selected]
      exact if_neg fun he => hc (client_injective he)

theorem deliver (h : SameLists owner app shown) {call : Call} {users : Users}
    (hu : app.currentUser c = some (owner c)) (hcall : call.client = client owner c) :
    SameLists owner (deliver P c call users app) (shown.deliver call users) := by
  have hshown : app.currentUser c = some call.client.uid := by rw [hu, hcall]; rfl
  have harray : shown.arrayUsers call = app.arrayUsers c call := h.arrayUsers c call hcall
  unfold Sessions.deliver Friends.App.deliver
  change SameLists owner (if app.currentUser c = some call.client.uid then _ else _) _
  rw [if_pos hshown, harray]
  refine loadImages ⟨h.user, fun c' call' hc' => ?_, fun c' list => ?_, h.selected⟩
  · by_cases hc : c' = c
    · subst hc
      simp only [Function.update_self, Function.update_apply, h.arrayUsers c' call' hc']
    · have hne : call' ≠ call := by
        rintro rfl
        exact hc (client_injective (hc'.symm.trans hcall))
      simp only [if_neg hne, Function.update_of_ne hc]
      exact h.arrayUsers c' call' hc'
  · rw [hcall]
    by_cases hc : c' = c
    · subst hc
      simp only [Function.update_self, Function.update_apply, true_and, h.usersArray]
    · have hne : client owner c' ≠ client owner c := fun he => hc (client_injective he)
      simp only [hne, false_and, if_false, Function.update_of_ne hc, h.usersArray]

theorem userRead (h : SameLists owner app shown) {call : Call} {peer : Option UserParams}
    (hu : app.currentUser c = some (owner c)) (hcall : call.client = client owner c) :
    SameLists owner (userRead P c call peer app) (Friends.userRead P.email call peer shown) := by
  cases peer with
  | none => exact h
  | some peer =>
    have hmatches : matchesQuery call.query peer.email (ownEmail P app c) =
        Friends.matchesQuery call.query peer.email (P.email call.client.uid) := by
      have hown : ownEmail P app c = some (P.email call.client.uid) := by
        rw [ownEmail, hu, hcall]
        rfl
      have hne : decide (some peer.email ≠ some (P.email call.client.uid)) =
          decide (peer.email ≠ P.email call.client.uid) := decide_eq_decide.2 (by simp)
      rw [hown, matchesQuery, hne, Friends.matchesQuery]
    unfold Sessions.userRead Friends.userRead
    simp only
    rw [hmatches]
    split
    · exact h.deliver hu hcall
    · exact h

/-- The process of `c` ends. -/
theorem die (h : SameLists owner app shown) (c : Client) :
    SameLists owner (die c app) (Friends.die (client owner c) shown) where
  user c' := by
    by_cases hc : c' = c
    · subst hc
      have hd : (Sessions.die c' app).device c' = Accounts.relaunched (app.device c') :=
        App.setDevice_self ..
      rw [hd]
      exact if_pos rfl
    · have hd : (Sessions.die c app).device c' = app.device c' := App.setDevice_ne hc
      rw [hd, ← h.user]
      exact if_neg fun he => hc (client_injective he)
  arrayUsers c' call hcall := by
    by_cases hc : c' = c
    · subst hc
      simp [Sessions.die, Friends.die, hcall]
    · have hne : call.client ≠ client owner c := fun he => hc (client_injective (hcall ▸ he))
      simp only [Sessions.die, Friends.die, if_neg hne, Function.update_of_ne hc]
      exact h.arrayUsers c' call hcall
  usersArray c' list := by
    by_cases hc : c' = c
    · subst hc
      simp [Sessions.die, Friends.die, App.dismiss]
    · have hne : client owner c' ≠ client owner c := fun he => hc (client_injective he)
      simp only [Sessions.die, Friends.die, App.dismiss, if_neg hne, Function.update_of_ne hc]
      exact h.usersArray c' list
  selected c' := by
    by_cases hc : c' = c
    · subst hc
      simp [Sessions.die, Friends.die, App.dismiss]
    · have hne : client owner c' ≠ client owner c := fun he => hc (client_injective he)
      simp only [Sessions.die, Friends.die, App.dismiss, if_neg hne, Function.update_of_ne hc]
      exact h.selected c'

end SameLists

/-! ## Commands -/

section Commands

theorem carries_friendCommands {cmds : List Friends.Command} (h : ∀ cmd ∈ cmds, Beside cmd) :
    (friendsOf P owner).Carries c (friendCommands (owner c) cmds) cmds := by
  induction cmds with
  | nil => exact ⟨rfl, rfl⟩
  | cons cmd cmds ih =>
    rw [List.forall_mem_cons] at h
    obtain ⟨hbeside, h⟩ := h
    obtain ⟨hwrites, hasks⟩ := ih h
    cases cmd with
    | write op completion =>
      have hcompletion : (completion.map (Cb.friend (owner c))).bind friendCb = completion := by
        cases completion <;> rfl
      cases op with
      | update | remove =>
        exact ⟨congr (congrArg List.cons (congrArg (Write.mk _ _) hcompletion)) hwrites, hasks⟩
    | ask a =>
      cases a with
      | childAdded | value | single => exact ⟨hwrites, congrArg (List.cons _) hasks⟩
      | putData | downloadURL => exact hbeside.elim

/-- What the accounts issue, and a look at all profiles, is none of the friends' business. -/
theorem carries_foreign (h : ∀ cmd ∈ cmds, (∃ cmd' user, Accounts.Issues user cmd' ∧
      cmd = accountCommand cmd') ∨ ∃ query, cmd = .ask (.single .users (.usersRead query))) :
    (friendsOf P owner).Carries c cmds [] := by
  refine ⟨List.filterMap_eq_nil_iff.2 fun w hw => ?_, List.filterMap_eq_nil_iff.2 fun x hx => ?_⟩
  · obtain ⟨c', op, completion⟩ := w
    rcases h _ (mem_newWrites.1 hw).2 with ⟨cmd', user, hissues, he⟩ | ⟨query, he⟩
    · cases hissues <;> cases he
      rfl
    · cases he
  · obtain ⟨c', a⟩ := x
    rcases h _ (mem_newAsks.1 hx).2 with ⟨cmd', user, hissues, he⟩ | ⟨query, he⟩
    · cases hissues <;> cases he <;> rfl
    · cases he
      rfl

theorem carries_accounts {cmds : List Accounts.Command} {user : Option UID}
    (h : ∀ cmd ∈ cmds, Accounts.Issues user cmd) :
    (friendsOf P owner).Carries c (cmds.map accountCommand) [] := by
  refine carries_foreign fun cmd hcmd => ?_
  obtain ⟨cmd', hcmd', rfl⟩ := List.mem_map.1 hcmd
  exact .inl ⟨cmd', user, h cmd' hcmd', rfl⟩

end Commands

/-! ## Callbacks -/

/-- What the friends are called with. -/
def liftInput : Input Friends.Loc → Input Loc
  | .acked ok => .acked ok
  | .childAdded key => .childAdded key
  | .value l v => .value (.friend l) v
  | .stored ok => .stored ok
  | .url u => .url u

theorem friendInput_liftInput (input : Input Friends.Loc) :
    friendInput (liftInput input) = some input := by
  cases input <;> rfl

/-- The profiles are all that they are never called with. -/
theorem liftInput_cases (input : Input Loc) :
    (∃ input', input = liftInput input') ∨ ∃ directory, input = .value .users directory := by
  cases input with
  | acked ok => exact .inl ⟨.acked ok, rfl⟩
  | childAdded key => exact .inl ⟨.childAdded key, rfl⟩
  | value l v =>
    cases l with
    | users => exact .inr ⟨v, rfl⟩
    | friend l => exact .inl ⟨.value l v, rfl⟩
  | stored ok => exact .inl ⟨.stored ok, rfl⟩
  | url u => exact .inl ⟨.url u, rfl⟩

theorem friendCallback_users {cb : Friends.Cb} {directory : Option Directory} :
    friendCallback P c uid cb (.value .users directory) app = (app, []) := by
  cases cb <;> rfl

theorem shownSide_client {list : FriendList} {dict : Option FriendDict} :
    shownSide (some (owner c)) list dict = Friends.shownSide (client owner c) list dict := by
  cases list with
  | incoming | sent => rfl
  | friends =>
    cases dict with
    | none => rfl
    | some dict => exact congrArg some (if_congr (Option.some_inj) rfl rfl)

/-- On a device that keeps its account, a callback of the friends does what it does in their model. -/
theorem friends_handle {shown : Friends.App} (happ : SameLists owner app shown)
    (hu : app.currentUser c = some (owner c)) {cb : Friends.Cb} {input : Input Friends.Loc}
    (hcall : ∀ call ∈ cb.call?, call.client = client owner c)
    (h : friendCallback P c (owner c) cb (liftInput input) app = (app', cmds)) :
    ∃ next cmds', Friends.handle P.email (client owner c) cb input shown = (next, cmds') ∧
      cmds = friendCommands (owner c) cmds' ∧ SameLists owner app' next := by
  -- what neither of them looks at
  have ignored : friendCallback P c (owner c) cb (liftInput input) app = (app, []) →
      Friends.handle P.email (client owner c) cb input shown = (shown, []) →
      ∃ next cmds', Friends.handle P.email (client owner c) cb input shown = (next, cmds') ∧
        cmds = friendCommands (owner c) cmds' ∧ SameLists owner app' next := by
    intro hcallback hhandle
    rw [hcallback] at h
    cases h
    exact ⟨shown, [], hhandle, rfl, happ⟩
  cases cb with
  | requestSend key toId userName =>
    cases input with
    | acked ok =>
      simp only [friendCallback, liftInput, hu] at h
      cases h
      exact ⟨_, _, rfl, rfl, happ.alert⟩
    | _ => exact ignored rfl rfl
  | recipientAdded => cases input <;> exact ignored rfl rfl
  | userFriendAdded key fromId userName =>
    cases input with
    | acked ok =>
      cases h
      exact ⟨_, _, rfl, rfl, happ⟩
    | _ => exact ignored rfl rfl
  | recipientFriendAdded fromId userName =>
    cases input with
    | acked ok =>
      cases h
      exact ⟨_, _, rfl, rfl, happ⟩
    | _ => exact ignored rfl rfl
  | removeOuter toId fromId userName =>
    cases input with
    | childAdded key =>
      cases h
      exact ⟨_, _, rfl, rfl, happ⟩
    | _ => exact ignored rfl rfl
  | removeInner toId fromId userName =>
    cases input with
    | childAdded key =>
      cases h
      exact ⟨_, _, rfl, rfl, happ.alert⟩
    | _ => exact ignored rfl rfl
  | peerAdded call =>
    cases input with
    | childAdded peer =>
      simp only [friendCallback, liftInput, hcall call rfl] at h
      cases h
      exact ⟨_, _, rfl, rfl, happ⟩
    | _ => exact ignored rfl rfl
  | entryAdded call =>
    cases input with
    | childAdded key =>
      cases h
      exact ⟨_, _, rfl, rfl, happ⟩
    | _ => exact ignored rfl rfl
  | recordRead call =>
    cases input with
    | value l v =>
      cases l with
      | friends key | friendRequest key =>
        simp only [friendCallback, liftInput, hu, shownSide_client] at h
        cases h
        exact ⟨_, _, rfl, rfl, happ⟩
      | userFriendRequest | userFriends => exact ignored rfl rfl
    | _ => exact ignored rfl rfl
  | userRead call side =>
    cases input with
    | value l v =>
      cases l with
      | friends key | friendRequest key =>
        cases h
        exact ⟨_, _, rfl, rfl, happ.userRead hu (hcall call rfl)⟩
      | userFriendRequest | userFriends => exact ignored rfl rfl
    | _ => exact ignored rfl rfl

/-! ## Presses -/

section Presses

variable {shown : Friends.App} {p : Press}

theorem SameLists.usersRead (h : SameLists owner app shown) {query : String}
    {directory : Option Directory} : SameLists owner (usersRead P c query directory app) shown := by
  unfold Sessions.usersRead
  split
  · exact h.trap
  · exact loadImages (h.congr (fun _ => rfl) rfl rfl rfl)

theorem stays_nil (h : SameLists owner app' shown) :
    (friendsOf P owner).Follows e c app' [] shown := .stays ⟨rfl, rfl⟩ h

theorem users_paramsOf {users : Users} {peer : UserParams} (h : paramsOf users = some peer) :
    users = peer.users := by
  obtain ⟨userId, name, image, email, phone, status⟩ := users
  obtain ⟨uid, rfl, rfl⟩ := Option.map_eq_some_iff.1 h
  rfl

theorem params_client (h : SameLists owner app shown) (c : Client) :
    shown.params (client owner c) = params (owner c) (app.device c).user := by
  rw [Friends.App.params, h.user]
  rfl

/-- On a device that keeps its account, a press of the friends does what it does in their model. -/
theorem friends_press (happ : SameLists owner app shown)
    (hu : app.currentUser c = some (owner c))
    (hchosen : ∀ x ∈ app.chosen c, x.userEmail ≠ P.email (owner c))
    (hp : ∀ p', p ≠ .account p') (h : press P c p e app = some (app', cmds)) :
    (friendsOf P owner).Follows e c app' cmds shown := by
  cases p with
  | account p => exact absurd rfl (hp p)
  | getUsersFromDatabase query =>
    obtain ⟨-, he⟩ := Option.ite_none_left_eq_some.1 h
    cases he
    exact .stays (carries_foreign fun cmd hcmd => .inr ⟨query, List.mem_singleton.1 hcmd⟩) happ
  | newFriendSelected i =>
    obtain ⟨-, he⟩ := Option.ite_none_left_eq_some.1 h
    obtain ⟨users, -, he⟩ := Option.map_eq_some_iff.1 he
    cases he
    refine stays_nil ?_
    unfold select
    split
    · exact happ.congr (fun _ => rfl) rfl rfl rfl
    · exact happ.trap
  | sendFrienRequestBtnPressed =>
    obtain ⟨-, he⟩ := Option.ite_none_left_eq_some.1 h
    obtain ⟨users, husers, he⟩ := Option.map_eq_some_iff.1 he
    rcases withPeer_eq he with ⟨rfl, uid, peer, huid, hpeer, rfl⟩ | ⟨rfl, rfl⟩
    · obtain rfl := Option.some.inj (huid.symm.trans hu)
      have hemail : peer.email ≠ P.email (owner c) := by
        have := hchosen users husers
        rwa [users_paramsOf hpeer] at this
      refine .presses (.sendFrienRequestBtnPressed (client owner c) peer) shown _ (if_neg hemail) ?_
        happ
      rw [Friends.sendFrienRequestBtnPressed, params_client happ]
      exact carries_friendCommands
        (List.forall_mem_cons.2 ⟨trivial, List.forall_mem_singleton.2 trivial⟩)
    · exact stays_nil happ.trap
  | search list query =>
    obtain ⟨-, he⟩ := Option.ite_none_left_eq_some.1 h
    have he := Option.some.inj he
    rw [searchList, hu] at he
    cases he
    exact .presses (.search (client owner c) list query) shown _ rfl
      (carries_friendCommands (List.forall_mem_singleton.2 beside_searchList)) happ
  | didSelectItemAt list i =>
    obtain ⟨-, he⟩ := Option.ite_none_left_eq_some.1 h
    obtain ⟨users, husers, he⟩ := Option.map_eq_some_iff.1 he
    cases he
    unfold select
    split
    · split
      · next hlist =>
        subst hlist
        refine .presses (.didSelectItemAt (client owner c) i) _ [] ?_ ⟨rfl, rfl⟩ (happ.select users)
        rw [Friends.program_act, Friends.act, happ.usersArray, husers]
        rfl
      · exact stays_nil happ
    · exact stays_nil happ.trap
  | addUsertoFriendsBtnPressed =>
    obtain ⟨-, he⟩ := Option.ite_none_left_eq_some.1 h
    obtain ⟨users, husers, he⟩ := Option.map_eq_some_iff.1 he
    rcases withPeer_eq he with ⟨rfl, uid, peer, huid, hpeer, rfl⟩ | ⟨rfl, rfl⟩
    · obtain rfl := Option.some.inj (huid.symm.trans hu)
      have hselected : shown.selected (client owner c) = some peer.users := by
        rw [happ.selected, husers, users_paramsOf hpeer]
      refine .presses (.addUsertoFriendsBtnPressed (client owner c) peer) shown _ (if_pos hselected)
        ?_ happ
      rw [Friends.addUsertoFriendsBtnPressed, params_client happ]
      exact carries_friendCommands
        (List.forall_mem_cons.2 ⟨trivial, List.forall_mem_singleton.2 trivial⟩)
    · exact stays_nil happ.trap

/-- A press of the accounts that signs nobody out leaves the friends as they are. -/
theorem friends_accountPress {p : Accounts.Press} (happ : SameLists owner app shown)
    (hp : p ≠ .signOutPressed) (h : press P c (.account p) e app = some (app', cmds)) :
    (friendsOf P owner).Follows e c app' cmds shown := by
  obtain ⟨⟨d, cmds'⟩, hpress, he⟩ := Option.map_eq_some_iff.1 h
  cases he
  have hpressed := Accounts.pressed_of_press hpress
  rcases hpressed.user with ⟨-, huser, -⟩ | ⟨rfl, -⟩
  · rw [if_neg hp]
    exact .stays (carries_accounts hpressed.issues) (happ.setDevice huser)
  · exact absurd rfl hp

/-- To the friends, a callback of the accounts loads a profile. -/
theorem friends_accountCallback {cb : Accounts.Cb} {input : Input Accounts.Loc}
    (happ : SameLists owner app shown) (h : accountCallback P c cb input app = (app', cmds)) :
    (friendsOf P owner).Follows e c app' cmds shown := by
  unfold accountCallback at h
  obtain ⟨d, cmds', hcall⟩ : ∃ d cmds',
      Accounts.callback P.toPlatform cb input (app.device c) = (d, cmds') := ⟨_, _, rfl⟩
  rw [hcall] at h
  cases h
  exact .presses (.profileLoaded (client owner c) _) _ [] rfl
    (carries_accounts (Accounts.called_of_callback hcall).issues) (happ.load _)

end Presses

end FLChat.Sessions
