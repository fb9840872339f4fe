import FLChat.Accounts.Home
import FLChat.Friends.Model
import FLChat.Keys.CompareKey
import FLChat.Realtime.Founded
import Mathlib.Data.List.Sort

/-!
# The search for new friends

`getUsersFromDatabase` reads all of `users` and casts five fields of every child by force, so one
child without them ends the process of everybody who searches. A registration writes all fields, a
change in `SettingsVC` writes one, and none looks at what is there. As long as only profiles that a
device sees are changed, and no rejected registration takes one away from under a change, every child
is whole and every search returns (`directoryWhole_of_reaches`); the change by a user whose
registration failed leaves a child with one field (`not_directoryWhole`).
-/

namespace FLChat.Accounts

open Realtime
open FLChat.Messages (Data)
open FLChat.Friends (Users containsText)

variable {P : Platform} {s₀ s s' : AState} {l : ALabel} {c : Client} {uid : UID} {d d' : Device}
  {cmds : List Command} {p : Press} {cb : Cb} {input : Input Loc} {t : Realtime.Tree Loc}

/-! ## The search -/

/-- The children of `users`, in the order in which the database keeps children. -/
def allUserSnapshot (t : Realtime.Tree Loc) : List (UID × Dict) :=
  ((t.children ["users"]).insertionSort Keys.Precedes).filterMap fun userId =>
    (t.lookup (.users userId)).map fun user => (userId, user)

/-- What the search makes of a child. `none` is a forced cast that fails. -/
def usersOf (userId : UID) (user : Dict) : Option Users := do
  let userName ← stringAt (some user) .name
  let userImage ← stringAt (some user) .image
  let userEmail ← stringAt (some user) .email
  let userPhone ← stringAt (some user) .phone
  let userStatus ← boolAt (some user) .online
  some ⟨some userId, userName, userImage, userEmail, userPhone, userStatus⟩

/-- `own` is the e-mail of whoever is signed in. -/
def getUsersFromDatabase (query : String) (own : Option String) (snapshot : List (UID × Dict)) :
    Option (List Users) := do
  let users ← snapshot.mapM fun (userId, user) => usersOf userId user
  some (users.filter fun user =>
    if query = "" then decide (some user.userEmail ≠ own)
    else containsText user.userEmail query && decide (some user.userEmail ≠ own))

/-- The value has the type of the field. -/
def Field.holds : Field → Any → Bool
  | .phone, .string _ | .name, .string _ | .email, .string _ | .image, .string _ => true
  | .online, .bool _ | .notificationOn, .bool _ | .notificationSound, .bool _ => true
  | _, _ => false

/-- The fields that the search casts. -/
def Field.searched : Field → Bool
  | .phone | .name | .email | .image | .online => true
  | .notificationOn | .notificationSound => false

/-- A child of `users` that has `name`, `image`, `email` and `phone` as strings and `online` as a
boolean. -/
def Whole (user : Dict) : Prop := ∀ f, f.searched = true → (user f).any f.holds = true

instance (user : Dict) : Decidable (Whole user) := inferInstanceAs (Decidable (∀ _, _))

theorem usersOf_isSome_of_whole {user : Dict} (h : Whole user) : (usersOf uid user).isSome := by
  have value : ∀ f, f.searched = true → ∃ v, user f = some v ∧ f.holds v = true :=
    fun f hf => (Option.any_eq_true ..).1 (h f hf)
  obtain ⟨name, hname, hn⟩ := value .name rfl
  obtain ⟨image, himage, hi⟩ := value .image rfl
  obtain ⟨email, hemail, he⟩ := value .email rfl
  obtain ⟨phone, hphone, hp⟩ := value .phone rfl
  obtain ⟨online, honline, ho⟩ := value .online rfl
  cases name <;> cases hn
  cases image <;> cases hi
  cases email <;> cases he
  cases phone <;> cases hp
  cases online <;> cases ho
  simp [usersOf, stringAt, boolAt, Any.asString, Any.asBool, *]

/-- The search returns exactly if no cast fails. -/
theorem getUsersFromDatabase_isSome {query : String} {own : Option String}
    {snapshot : List (UID × Dict)} : (getUsersFromDatabase query own snapshot).isSome = true ↔
      ∀ x ∈ snapshot, (usersOf x.1 x.2).isSome = true := by
  have all : (snapshot.mapM fun x => usersOf x.1 x.2).isSome = true ↔
      ∀ x ∈ snapshot, (usersOf x.1 x.2).isSome = true := by
    induction snapshot with
    | nil => simp
    | cons x snapshot ih =>
      rw [List.mapM_cons, List.forall_mem_cons, ← ih]
      cases usersOf x.1 x.2 <;> cases snapshot.mapM fun x => usersOf x.1 x.2 <;> simp
  rw [← all]
  unfold getUsersFromDatabase
  cases h : snapshot.mapM fun x => usersOf x.1 x.2 <;> simp

theorem mem_allUserSnapshot {user : Dict} :
    (uid, user) ∈ allUserSnapshot t ↔ t.lookup (.users uid) = some user := by
  simp only [allUserSnapshot, List.mem_filterMap, Option.map_eq_some_iff, Prod.mk.injEq]
  constructor
  · rintro ⟨userId, -, user', hu, rfl, rfl⟩
    exact hu
  · intro hu
    have hchild : uid ∈ t.children ["users"] := by
      refine Tree.mem_children.2 ⟨.users uid, ?_, rfl⟩
      rw [← AList.lookup_isSome, hu]
      rfl
    exact ⟨uid, (List.mem_insertionSort _).2 hchild, user, hu, rfl, rfl⟩

theorem map_filterMap_sublist {α β γ : Type} {f : α → Option β} {g : β → γ} {k : α → γ}
    (h : ∀ x y, f x = some y → g y = k x) (xs : List α) :
    ((xs.filterMap f).map g).Sublist (xs.map k) := by
  induction xs with
  | nil => exact .slnil
  | cons x xs ih =>
    cases hx : f x with
    | none =>
      rw [List.filterMap_cons_none hx]
      exact ih.cons _
    | some y =>
      rw [List.filterMap_cons_some hx, List.map_cons, List.map_cons, h x y hx]
      exact ih.cons_cons _

/-- The children come once each, and no child comes behind one that the database lists after it. -/
theorem listed_allUserSnapshot : ((allUserSnapshot t).map Prod.fst).Nodup ∧
    ((allUserSnapshot t).map Prod.fst).Pairwise Keys.Precedes := by
  have hkeys : ((allUserSnapshot t).map Prod.fst).Sublist
      ((t.children ["users"]).insertionSort Keys.Precedes) := by
    conv_rhs => rw [← List.map_id (List.insertionSort _ _)]
    refine map_filterMap_sublist (fun userId x hx => ?_) _
    obtain ⟨user, -, rfl⟩ := Option.map_eq_some_iff.1 hx
    rfl
  constructor
  · refine hkeys.nodup ?_
    exact (List.perm_insertionSort _ _).nodup_iff.2 (Tree.children_nodup t ["users"])
  · exact (List.pairwise_insertionSort _ _).sublist hkeys

theorem mem_of_mapM {α β : Type} {f : α → Option β} {xs : List α} {ys : List β} {y : β}
    (h : xs.mapM f = some ys) (hy : y ∈ ys) : ∃ x ∈ xs, f x = some y := by
  induction xs generalizing ys with
  | nil =>
    cases h
    cases hy
  | cons x xs ih =>
    rw [List.mapM_cons] at h
    obtain ⟨y', hx, h⟩ := Option.bind_eq_some_iff.1 h
    obtain ⟨ys', hxs, h⟩ := Option.bind_eq_some_iff.1 h
    cases h
    rcases List.mem_cons.1 hy with rfl | hy
    · exact ⟨x, List.mem_cons_self, hx⟩
    · obtain ⟨x', hx', hf⟩ := ih hxs hy
      exact ⟨x', List.mem_cons_of_mem _ hx', hf⟩

/-- What the search finds is a child. -/
theorem mem_of_getUsersFromDatabase {query : String} {own : Option String}
    {snapshot : List (UID × Dict)} {users : List Users} {x : Users}
    (h : getUsersFromDatabase query own snapshot = some users) (hx : x ∈ users) :
    ∃ uid user, (uid, user) ∈ snapshot ∧ usersOf uid user = some x := by
  obtain ⟨all, hall, he⟩ := Option.bind_eq_some_iff.1 h
  cases he
  obtain ⟨⟨uid, user⟩, hmem, hx⟩ := mem_of_mapM hall (List.mem_filter.1 hx).1
  exact ⟨uid, user, hmem, hx⟩

/-- Where every child is whole, every search returns. -/
theorem isSome_of_whole (h : ∀ uid user, t.lookup (.users uid) = some user → Whole user)
    (query : String) (own : Option String) :
    (getUsersFromDatabase query own (allUserSnapshot t)).isSome = true :=
  getUsersFromDatabase_isSome.2 fun x hx =>
    usersOf_isSome_of_whole (h x.1 x.2 (mem_allUserSnapshot.1 hx))

/-! ## Six writers -/

/-- What a change in `SettingsVC` writes. -/
def Press.dict : Press → Option Dict
  | .changeNameBtnPressed text => some (changeUserName (checkTextFieldForEpties text "User name"))
  | .changePhoneBtnPressed text =>
    some (changeUserPhone (checkTextFieldForEpties text "User phone number"))
  | .pushNotificationSoundBtnPressed isOn => some (changeUsserNotificationSound isOn)
  | .pushNotificationBtnPressed isOn => some (changeUserPushNotification isOn)
  | _ => none

/-- The account whose picture a reply is about to change. -/
def editedBy : Task Loc Client Cb → Option UID
  | ⟨_, .newURLFetched uid, .url (some _)⟩ => some uid
  | _ => none

theorem not_write_of_read {k : Response} {op : Op Loc} {completion : Option Cb}
    (h : .write op completion ∈ getUserCredentialsFromDatabase k d) : False := by
  unfold getUserCredentialsFromDatabase at h
  split at h
  · cases h
  · cases List.mem_singleton.1 h

/-- A change is made in `SettingsVC`, which is presented over `HomeVC`. -/
theorem changeUser_of_press (h : press P p d = some (d', cmds)) {dict : Dict}
    (hdict : p.dict = some dict) : d.home = true ∧ changeUser dict d = (d', cmds) := by
  unfold press at h
  split at h
  · cases h
  cases p with
  | changeNameBtnPressed | changePhoneBtnPressed | pushNotificationSoundBtnPressed
  | pushNotificationBtnPressed =>
    cases hdict
    exact (Option.ite_none_right_eq_some.1 h).imp_right Option.some.inj
  | _ => cases hdict

/-- The other presses write nothing. -/
theorem not_write_of_press (h : press P p d = some (d', cmds)) (hdict : p.dict = none) {op : Op Loc}
    {completion : Option Cb} (hcmd : .write op completion ∈ cmds) : False := by
  unfold press at h
  split at h
  · cases h
  cases p with
  | changeNameBtnPressed | changePhoneBtnPressed | pushNotificationSoundBtnPressed
  | pushNotificationBtnPressed => cases hdict
  | loginBtnPressed | didSignInFor =>
    cases h
    exact not_write_of_read hcmd
  | homeDidAppear | settingsDidAppear =>
    obtain ⟨-, he⟩ := Option.ite_none_right_eq_some.1 h
    cases he
    exact not_write_of_read hcmd
  | registrateUserAndLogIn | facebookAuth =>
    cases h
    unfold registrationUserIntoDB at hcmd
    split at hcmd
    · cases hcmd
    · cases List.mem_singleton.1 hcmd
  | signOutPressed =>
    obtain ⟨-, he⟩ := Option.ite_none_right_eq_some.1 h
    cases he
    cases hcmd
  | loginDidAppear =>
    simp only at h
    split at h
    · cases h
    · cases h
      cases hcmd
  | didFinishPickingMediaWithInfo image =>
    obtain ⟨-, he⟩ := Option.ite_none_right_eq_some.1 h
    have hcmds : (uploadNewUserImageIntoDB P image d).2 = cmds :=
      congrArg Prod.snd (Option.some.inj he)
    rw [← hcmds] at hcmd
    unfold uploadNewUserImageIntoDB at hcmd
    split at hcmd
    · cases hcmd
    · split at hcmd
      · cases hcmd
      · cases List.mem_singleton.1 hcmd

/-- A press writes what a change says. -/
theorem written_of_press (h : press P p d = some (d', cmds)) {op : Op Loc}
    {completion : Option Cb} (hcmd : .write op completion ∈ cmds) :
    d.home = true ∧ ∃ uid dict, d.currentUser = some uid ∧ p.dict = some dict ∧
      op = .update (.users uid) dict := by
  cases hdict : p.dict with
  | none => exact (not_write_of_press h hdict hcmd).elim
  | some dict =>
    obtain ⟨hhome, he⟩ := changeUser_of_press h hdict
    have hcmds : (changeUser dict d).2 = cmds := congrArg Prod.snd he
    rw [← hcmds] at hcmd
    unfold changeUser at hcmd
    split at hcmd
    · cases hcmd
    · next uid hu =>
      rcases List.mem_cons.1 hcmd with hcmd | hcmd
      · cases hcmd
        exact ⟨hhome, uid, dict, hu, rfl, rfl⟩
      · exact (not_write_of_read hcmd).elim

/-- A callback writes the profile of a registration, or the URL of a new picture. -/
theorem written_of_callback (h : callback P cb input d = (d', cmds)) {op : Op Loc}
    {completion : Option Cb} (hcmd : .write op completion ∈ cmds) :
    (∃ uid email url, cb = .urlFetched uid email ∧ op = .update (.users uid)
      (userData email d.user.phone d.user.name (P.absoluteString url) d.user.online
        d.user.notificationOn d.user.notificationSoundOn)) ∨
    ∃ uid url, d.trapped = false ∧ editedBy ⟨c, cb, input⟩ = some uid ∧
      op = .update (.users uid) (changeUserImage (P.absoluteString url)) := by
  have hc := called_of_callback h
  unfold callback at h
  split at h
  · cases h
    cases hcmd
  · next htrapped =>
    cases hc with
    | ignored | credentialsRead => cases hcmd
    | imageStored | newImageStored => cases List.mem_singleton.1 hcmd
    | urlFetched =>
      cases List.mem_singleton.1 hcmd
      exact .inl ⟨_, _, _, rfl, rfl⟩
    | newURLFetched =>
      rcases List.mem_cons.1 hcmd with hcmd | hcmd
      · cases hcmd
        exact .inr ⟨_, _, Bool.eq_false_iff.2 htrapped, rfl, rfl⟩
      · exact (not_write_of_read hcmd).elim

/-! ## Whole and partial profiles -/

/-- The profiles are whole. -/
def WholeAt : (l : Loc) → Val l → Prop
  | .users _, user => Whole user

instance : (l : Loc) → DecidablePred (WholeAt l)
  | .users _, user => inferInstanceAs (Decidable (Whole user))

/-- Every field has its type. -/
def Proper (user : Dict) : Prop := ∀ f v, user f = some v → f.holds v = true

theorem proper_single {f : Field} {v : Any} (h : f.holds v = true) : Proper (.single f v) := by
  intro f' v' hf'
  by_cases he : f' = f
  · subst he
    simp only [Dict.single, ↓reduceIte, Option.some.injEq] at hf'
    exact hf' ▸ h
  · simp [Dict.single, he] at hf'

/-- A change writes one field. -/
theorem Press.dict_single {dict : Dict} (h : p.dict = some dict) :
    ∃ f v, dict = .single f v ∧ f.holds v = true := by
  cases p with
  | changeNameBtnPressed | changePhoneBtnPressed | pushNotificationSoundBtnPressed
  | pushNotificationBtnPressed =>
    cases h
    exact ⟨_, _, rfl, rfl⟩
  | _ => cases h

theorem userData_whole (email phone name image : String) (online notificationOn
    notificationSound : Bool) :
    Whole (userData email phone name image online notificationOn notificationSound) := by
  intro f _
  cases f <;> rfl

theorem userData_proper (email phone name image : String) (online notificationOn
    notificationSound : Bool) :
    Proper (userData email phone name image online notificationOn notificationSound) := by
  intro f v hv
  cases f <;> cases hv <;> rfl

/-- A write of proper fields keeps a profile whole. -/
theorem keeps_of_proper {dict : Dict} (h : Proper dict) :
    (Op.update (.users uid) dict : Op Loc).Keeps WholeAt := by
  intro old hold f hf
  change ((dict f).or (old f)).any f.holds = true
  cases hv : dict f with
  | none => exact hold f hf
  | some v => exact h f v hv

/-! ## Every child is whole -/

/-- A profile that a device changes is there for it, and where a registration is rejected, none of
the changes behind it relies on it. -/
def EditsExisting (s : AState) : ALabel → Prop
  | .press a _ => a.press.dict.isSome = true → (s.app a.client).home = true →
    ∀ uid ∈ (s.app a.client).currentUser, Loc.users uid ∈ s.view a.client
  | .run i _ => ∀ t ∈ s.tasks[i]?, (s.app t.client).trapped = false →
    ∀ uid ∈ editedBy t, Loc.users uid ∈ s.view t.client
  | .commit i false => ∀ w ∈ s.writes[i]?,
    Founded WholeAt s.tree (queueOf w.client (s.writes.eraseIdx i))
  | _ => True

instance (s : AState) : DecidablePred (EditsExisting s)
  | .press a _ => inferInstanceAs (Decidable (_ → _ → ∀ uid ∈ (s.app a.client).currentUser, _))
  | .run i _ => inferInstanceAs (Decidable (∀ t ∈ s.tasks[i]?, _ → ∀ uid ∈ editedBy t, _))
  | .commit i false => inferInstanceAs (Decidable (∀ w ∈ s.writes[i]?, Founded _ _ _))
  | .commit _ true | .serve _ _ | .die _ => isTrue trivial

theorem foundedQueues_step (h : FoundedQueues WholeAt s) (hl : EditsExisting s l)
    (hs : Transition (program P) s l s') : FoundedQueues WholeAt s' := by
  cases hs with
  | @press a e c app cmds hkey hact =>
    obtain ⟨⟨d', cmds'⟩, hpress, he⟩ := Option.map_eq_some_iff.1 hact
    cases he
    refine h.issue rfl rfl fun w hw => ?_
    obtain ⟨hc, hcmd⟩ := mem_newWrites.1 hw
    obtain ⟨hhome, uid, dict, hu, hdict, hop⟩ := written_of_press hpress hcmd
    obtain ⟨f, v, rfl, hv⟩ := Press.dict_single hdict
    rw [hop]
    exact ⟨.inr (hl (by rw [hdict]; rfl) hhome uid hu), keeps_of_proper (proper_single hv)⟩
  | @run i e t app cmds hkey ht hrun =>
    refine h.issue rfl rfl fun w hw => ?_
    obtain ⟨hc, hcmd⟩ := mem_newWrites.1 hw
    obtain ⟨c, cb, input⟩ := t
    cases hrun
    rcases written_of_callback rfl hcmd with ⟨uid, email, url, -, hop⟩ |
      ⟨uid, url, htrapped, hedited, hop⟩
    · rw [hop]
      exact ⟨.inl (userData_whole _ _ _ _ _ _ _), keeps_of_proper (userData_proper _ _ _ _ _ _ _)⟩
    · rw [hop]
      exact ⟨.inr (hl _ ht htrapped uid hedited), keeps_of_proper (proper_single rfl)⟩
  | apply hw hfirst => exact h.apply hw hfirst
  | reject hw hfirst => exact h.reject hw (hl _ hw)
  | serve => exact ⟨h.tree, h.queues, h.keeps⟩
  | die => exact h.die

/-- Every child of `users` is whole, and every search returns on every device. -/
structure DirectoryWhole (s : AState) : Prop where
  children : ∀ uid user, s.tree.lookup (.users uid) = some user → Whole user
  search : ∀ c query own, (getUsersFromDatabase query own (allUserSnapshot (s.view c))).isSome = true

theorem directoryWhole_of_reaches (hs : Initial s₀)
    (htree : ∀ uid user, s₀.tree.lookup (.users uid) = some user → Whole user)
    (h : Reaches (step (program P)) EditsExisting s₀ s) : DirectoryWhole s := by
  have hqueues : FoundedQueues WholeAt s := by
    refine h.invariant (I := FoundedQueues WholeAt) ⟨?_, fun c => ?_, ?_⟩ fun ih hl hstep =>
      foundedQueues_step ih hl (transition_of_step hstep)
    · rintro ⟨uid⟩ user hu
      exact htree uid user hu
    · rw [State.queue, hs.writes]
      trivial
    · simp [hs.writes]
  exact ⟨fun uid user hu => hqueues.tree (.users uid) user hu, fun c query own =>
    isSome_of_whole (fun uid user hu => hqueues.view c (.users uid) user hu) query own⟩

/-- Alice registers, changes her name before the server has her profile, and goes on to change her
picture; Bob searches. -/
def registerAndEdit : List ALabel := [
  .press ⟨0, .registrateUserAndLogIn "alice"⟩ ⟨"a", 0⟩, .serve 0 true, .run 0 ⟨"b", 1⟩,
  .serve 0 true, .run 0 ⟨"c", 2⟩, .press ⟨0, .changeNameBtnPressed "Alice"⟩ ⟨"d", 3⟩,
  .commit 0 true, .press ⟨0, .didFinishPickingMediaWithInfo ⟨"cat", 200, 100⟩⟩ ⟨"e", 4⟩,
  .commit 0 true, .serve 1 true, .run 0 ⟨"f", 5⟩, .serve 1 true, .run 0 ⟨"g", 6⟩, .commit 0 true]

theorem registerAndEdit_runs :
    (exec (step (program sdk)) EditsExisting start registerAndEdit).isSome = true := by
  decide +kernel

theorem directoryWhole_registerAndEdit :
    DirectoryWhole ((exec (step (program sdk)) EditsExisting start registerAndEdit).get
      registerAndEdit_runs) :=
  directoryWhole_of_reaches start_start.initial (fun _ _ hu => by cases hu)
    (.of_exec (Option.some_get _).symm)

/-! ## A profile of one field -/

theorem usersOf_single {f : Field} {v : Any} : usersOf uid (.single f v) = none := by
  cases f <;> simp [usersOf, stringAt, boolAt, Dict.single]

/-- A device that writes one field of a profile that it does not see cannot search any more. -/
theorem not_directoryWhole_of_issue {f : Field} {v : Any} (hno : Loc.users uid ∉ s.view c)
    (hcmds : cmds = updateUserIntoDatabaseWithUID uid (.single f v) :: setUserSettings d)
    (htree : s'.tree = s.tree) (hwrites : s'.writes = s.writes ++ newWrites c cmds) :
    ¬ DirectoryWhole s' := by
  intro h
  have hview : s'.view c = (s.view c).update (.users uid) (.single f v) := by
    rw [view_issue htree hwrites, hcmds]
    unfold setUserSettings getUserCredentialsFromDatabase
    split <;> rfl
  have hlookup : (s'.view c).lookup (.users uid) = some (.single f v) := by
    rw [hview, Tree.lookup_update_self, Tree.merged, AList.lookup_eq_none.2 hno]
  have hreturns := getUsersFromDatabase_isSome.1 (h.search c "" none) _
    (mem_allUserSnapshot.2 hlookup)
  rw [usersOf_single] at hreturns
  cases hreturns

/-- A change of a profile that is not there breaks the search at once. -/
theorem not_directoryWhole_of_press {a : Action} {e : Env}
    (hstep : step (program P) s (.press a e) = some s') (hl : ¬ EditsExisting s (.press a e)) :
    ¬ DirectoryWhole s' := by
  simp only [EditsExisting, not_forall] at hl
  obtain ⟨hedits, -, uid, hu, hno⟩ := hl
  obtain ⟨dict, hdict⟩ := Option.isSome_iff_exists.1 hedits
  cases transition_of_step hstep with
  | press hkey hact =>
    obtain ⟨⟨d', cmds⟩, hpress, he⟩ := Option.map_eq_some_iff.1 hact
    cases he
    obtain ⟨-, hchange⟩ := changeUser_of_press hpress hdict
    obtain ⟨f, v, rfl, -⟩ := Press.dict_single hdict
    simp only [changeUser, Option.mem_def.1 hu, Prod.mk.injEq] at hchange
    exact not_directoryWhole_of_issue hno hchange.2.symm rfl rfl

/-- So does a reply with the URL of a new picture. -/
theorem not_directoryWhole_of_run {i : ℕ} {e : Env}
    (hstep : step (program P) s (.run i e) = some s') (hl : ¬ EditsExisting s (.run i e)) :
    ¬ DirectoryWhole s' := by
  simp only [EditsExisting, not_forall] at hl
  obtain ⟨⟨c, cb, input⟩, ht, htrapped, uid, hedited, hno⟩ := hl
  cases transition_of_step hstep with
  | @run _ _ t app cmds hkey ht' hrun =>
    obtain rfl := Option.some.inj (ht.symm.trans ht')
    unfold editedBy at hedited
    split at hedited
    · next c' uid' url he =>
      cases he
      cases hedited
      have hfalse : (s.app c).trapped = false := htrapped
      simp only [program_handle, callback, hfalse, Bool.false_eq_true, ↓reduceIte, newURLFetched,
        Prod.mk.injEq] at hrun
      exact not_directoryWhole_of_issue hno hrun.2.symm rfl rfl
    · cases hedited

/-- The registration of Alice gets no URL, the app is launched again, and Alice changes her name
while `HomeVC` waits for her profile. -/
def registrationFails : List ALabel := [
  .press ⟨0, .registrateUserAndLogIn "alice"⟩ ⟨"a", 0⟩, .serve 0 false, .run 0 ⟨"b", 1⟩,
  .serve 0 false, .run 0 ⟨"c", 2⟩, .die 0, .press ⟨0, .loginDidAppear⟩ ⟨"d", 3⟩,
  .press ⟨0, .homeDidAppear⟩ ⟨"e", 4⟩, .press ⟨0, .changeNameBtnPressed "Alice"⟩ ⟨"f", 5⟩,
  .commit 0 true]

def onlyName : AState :=
  (exec (step (program sdk)) (Accepts fun _ => true) start registrationFails).get
    (by decide +kernel)

/-- Her profile has a name and nothing else, and nobody can search. -/
theorem not_directoryWhole :
    ¬ ∀ s₀ s, Start s₀ → (∀ uid user, s₀.tree.lookup (.users uid) = some user → Whole user) →
      Reaches (step (program sdk)) (Accepts fun _ => true) s₀ s → DirectoryWhole s := by
  intro h
  have hwhole := (h start onlyName start_start (fun _ _ hu => by cases hu)
    (.of_exec (Option.some_get _).symm)).children "alice" (changeUserName "Alice") rfl
  revert hwhole
  decide

end FLChat.Accounts
