import FLChat.Realtime.Copying
import FLChat.Sessions.Crossing

/-!
# The users inside the records

The records of requests and friendships hold copies of profiles: those of whoever sends or accepts
come from `User.instance`, those of the other side from a list on the screen. As long as nobody sends
or accepts before the own profile is loaded (`Presents`), and the singleton belongs to the session
(`SameSession`), every copy was in the profile it is of (`realSnapshots_of_reaches`), so that each
picture parses. After a launch `HomeVC` is there before the profile is, and a friendship that is
accepted by then carries the placeholders (`not_realSnapshots`).
-/

namespace FLChat.Sessions

open Realtime
open FLChat.Accounts (UID Dict Device userData stringAt)
open FLChat.Friends (Users UserParams RequestDict FriendDict)

variable {P : Platform} {s₀ s s' : SState} {l : SLabel} {c : Client} {uid : UID} {op : Op Loc}
  {app app' : App} {x : Users}

/-! ## Facts about users -/

/-- The fields that are copied as strings. -/
inductive Text
  | name
  | image
  | email
  | phone
  deriving DecidableEq

def Text.field : Text → Accounts.Field
  | .name => .name
  | .image => .image
  | .email => .email
  | .phone => .phone

/-- What the singleton has for a field. -/
def Text.ofUser (text : Text) (user : Accounts.User) : String :=
  match text with
  | .name => user.name
  | .image => user.image
  | .email => user.email
  | .phone => user.phone

/-- What a user of a record has for a field. -/
def Text.ofParams (text : Text) (user : UserParams) : String :=
  match text with
  | .name => user.name
  | .image => user.image
  | .email => user.email
  | .phone => user.phone

/-- What an entry has for a field. -/
def Text.ofUsers (text : Text) (users : Users) : String :=
  match text with
  | .name => users.userName
  | .image => users.userImage
  | .email => users.userEmail
  | .phone => users.userPhone

theorem stringAt_of_credentials {dict : Dict} {user : Accounts.User} (text : Text)
    (h : Accounts.credentials (some dict) = some user) :
    stringAt (some dict) text.field = some (text.ofUser user) := by
  simp only [Accounts.credentials, Option.bind_eq_bind, Option.bind_eq_some_iff,
    Option.some.injEq] at h
  obtain ⟨phone, hphone, name, hname, email, hemail, image, himage, _, -, _, -, _, -, rfl⟩ := h
  cases text with
  | name => exact hname
  | image => exact himage
  | email => exact hemail
  | phone => exact hphone

theorem stringAt_of_usersOf {dict : Dict} (text : Text) (h : Accounts.usersOf uid dict = some x) :
    x.userId = some uid ∧ stringAt (some dict) text.field = some (text.ofUsers x) := by
  simp only [Accounts.usersOf, Option.bind_eq_bind, Option.bind_eq_some_iff,
    Option.some.injEq] at h
  obtain ⟨name, hname, image, himage, email, hemail, phone, hphone, _, -, rfl⟩ := h
  refine ⟨rfl, ?_⟩
  cases text with
  | name => exact hname
  | image => exact himage
  | email => exact hemail
  | phone => exact hphone

/-- The user has the value, or, where `uid` is `none`, somebody has. -/
structure Fact where
  uid : Option UID
  text : Text
  value : String

def Fact.About (f : Fact) (uid : UID) : Prop := ∀ u ∈ f.uid, u = uid

/-- The profile of `uid` has the value. -/
def HeldBy (directory : Directory) (uid : UID) (text : Text) (value : String) : Prop :=
  ∃ user, Directory.profile directory uid = some user ∧
    stringAt (some user) text.field = some value

def StatedBy (user : UserParams) (f : Fact) : Prop :=
  f.About user.uid ∧ f.text.ofParams user = f.value

def CarriedBy (x : Users) (f : Fact) : Prop :=
  (∀ u ∈ f.uid, x.userId = some u) ∧ f.text.ofUsers x = f.value

/-- The profiles are the sources, and the records and the memory of the devices have copies. The
singleton counts from the moment it is filled. -/
def copying : Copying Loc Client App Fact where
  shows
    | .users, directory, f => ∃ uid, f.About uid ∧ HeldBy directory uid f.text f.value
    | .friend (.friendRequest _), dict, f => ∃ side, StatedBy (RequestDict.side dict side) f
    | .friend (.friends _), dict, f => ∃ side, StatedBy (FriendDict.side dict side) f
    | .friend (.userFriendRequest ..), _, _ => False
    | .friend (.userFriends ..), _, _ => False
  source l := l = .users
  holds app c f :=
    (∃ uid, app.currentUser c = some uid ∧ (app.device c).user ≠ {} ∧ f.About uid ∧
      f.text.ofUser (app.device c).user = f.value) ∨
    ∃ x, Listed app c x ∧ CarriedBy x f

/-! ## Merging profiles -/

/-- A profile has what was written into it last. -/
theorem stringAt_updateChildValues {new old : Dict} {f : Accounts.Field} {v : String}
    (h : stringAt (some (new.updateChildValues old)) f = some v) :
    stringAt (some new) f = some v ∨ stringAt (some old) f = some v := by
  simp only [stringAt, Option.bind_some, Accounts.Dict.updateChildValues] at h ⊢
  cases hnew : new f with
  | none =>
    rw [hnew, Option.none_or] at h
    exact .inr h
  | some w =>
    rw [hnew, Option.some_or] at h
    exact .inl h

theorem stringAt_updateChildValues_new {new old : Dict} {f : Accounts.Field} {v : String}
    (h : stringAt (some new) f = some v) :
    stringAt (some (new.updateChildValues old)) f = some v := by
  simp only [stringAt, Option.bind_some, Accounts.Dict.updateChildValues] at h ⊢
  cases hnew : new f with
  | none =>
    rw [hnew] at h
    cases h
  | some w =>
    rw [hnew] at h
    exact h

theorem HeldBy.update {new old : Directory} {text : Text} {value : String}
    (h : HeldBy new uid text value) : HeldBy (Directory.updateChildValues new old) uid text value := by
  obtain ⟨user, huser, hvalue⟩ := h
  obtain ⟨t, ht⟩ := Tree.lookup_foldl_update new.nodupKeys (AList.mem_lookup_iff.1 huser) old
  refine ⟨_, ht, ?_⟩
  unfold Tree.merged
  split
  · exact hvalue
  · exact stringAt_updateChildValues_new hvalue

/-- What a profile has is one of the values in `K`. -/
def ValuesIn (K : UID → Text → String → Prop) : (l : Accounts.Loc) → Val l → Prop
  | .users uid, user => ∀ text value, stringAt (some user) text.field = some value → K uid text value

theorem mergeable_valuesIn (K : UID → Text → String → Prop) : Mergeable (ValuesIn K) := by
  rintro ⟨uid⟩ new old hnew hold text value h
  rcases stringAt_updateChildValues h with h | h
  · exact hnew text value h
  · exact hold text value h

theorem all_valuesIn {K : UID → Text → String → Prop} {directory : Directory} :
    Tree.All (ValuesIn K) directory ↔
      ∀ uid text value, HeldBy directory uid text value → K uid text value := by
  constructor
  · rintro h uid text value ⟨user, huser, hvalue⟩
    exact h (.users uid) user huser text value hvalue
  · rintro h ⟨uid⟩ user huser text value hvalue
    exact h uid text value ⟨user, huser, hvalue⟩

theorem HeldBy.of_update {new old : Directory} {text : Text} {value : String}
    (h : HeldBy (Directory.updateChildValues new old) uid text value) :
    HeldBy new uid text value ∨ HeldBy old uid text value := by
  let K uid text value := HeldBy new uid text value ∨ HeldBy old uid text value
  have hnew : Tree.All (ValuesIn K) new := all_valuesIn.2 fun _ _ _ => .inl
  have hold : Tree.All (ValuesIn K) old := all_valuesIn.2 fun _ _ _ => .inr
  have hall : Tree.All (ValuesIn K) (Directory.updateChildValues new old) :=
    hold.foldl_update (mergeable_valuesIn K) fun user huser =>
      hnew user.1 user.2 (AList.mem_lookup_iff.2 huser)
  exact all_valuesIn.1 hall uid text value h

theorem merges : copying.Merges := by
  rintro (_ | l) new old f hf
  · obtain ⟨uid, hu, hf⟩ := hf
    exact hf.of_update.imp (⟨uid, hu, ·⟩) (⟨uid, hu, ·⟩)
  · cases l <;> exact .inl hf

theorem overwrites : copying.Overwrites := by
  rintro l new old f rfl ⟨uid, hu, hf⟩
  exact ⟨uid, hu, hf.update⟩

theorem heldIn_iff {t : Realtime.Tree Loc} {f : Fact} : copying.HeldIn t f ↔
    ∃ directory uid, t.lookup .users = some directory ∧ f.About uid ∧
      HeldBy directory uid f.text f.value := by
  constructor
  · rintro ⟨l, directory, rfl, hv, uid, hu, hf⟩
    exact ⟨directory, uid, hv, hu, hf⟩
  · rintro ⟨directory, uid, hv, hu, hf⟩
    exact ⟨.users, directory, rfl, hv, uid, hu, hf⟩

/-! ## What is copied -/

@[simp] theorem Text.ofParams_params (text : Text) (uid : UID) (user : Accounts.User) :
    text.ofParams (params uid user) = text.ofUser user := by
  cases text <;> rfl

theorem Text.ofUsers_of_shows {user : UserParams} (text : Text) (h : Shows user x) :
    text.ofUsers x = text.ofParams user := by
  rcases h with rfl | rfl <;> cases text <;> rfl

theorem Text.ofUsers_of_paramsOf {peer : UserParams} (text : Text) (h : paramsOf x = some peer) :
    x.userId = some peer.uid ∧ text.ofUsers x = text.ofParams peer := by
  obtain ⟨uid, huid, rfl⟩ := Option.map_eq_some_iff.1 h
  exact ⟨huid, by cases text <;> rfl⟩

theorem statedBy_of_shows {user : UserParams} {f : Fact} (h : Shows user x) (hf : CarriedBy x f) :
    StatedBy user f := by
  obtain ⟨huid, hvalue⟩ := hf
  refine ⟨fun u hu => ?_, (f.text.ofUsers_of_shows h).symm.trans hvalue⟩
  rcases h with rfl | rfl
  · exact (Option.some.inj (huid u hu)).symm
  · exact nomatch huid u hu

theorem carriedBy_of_paramsOf {peer : UserParams} {f : Fact} (h : paramsOf x = some peer)
    (hf : StatedBy peer f) : CarriedBy x f := by
  obtain ⟨huid, hvalue⟩ := f.text.ofUsers_of_paramsOf h
  exact ⟨fun u hu => by rw [huid, hf.1 u hu], hvalue.trans hf.2⟩

theorem tells_of_reports {input : Input Loc} {f : Fact} (h : Reports input x)
    (hf : CarriedBy x f) : copying.tells input f := by
  unfold Reports at h
  split at h
  · obtain ⟨uid, user, hprofile, hx⟩ := h
    obtain ⟨huid, hvalue⟩ := stringAt_of_usersOf f.text hx
    rw [hf.2] at hvalue
    refine ⟨uid, fun u hu => ?_, user, hprofile, hvalue⟩
    exact Option.some.inj ((hf.1 u hu).symm.trans huid)
  · obtain ⟨side, h⟩ := h
    exact ⟨side, statedBy_of_shows h hf⟩
  · obtain ⟨side, h⟩ := h
    exact ⟨side, statedBy_of_shows h hf⟩
  · exact h.elim

theorem holds_of_extends {new : Users → Prop} {R : Fact → Prop} {c' : Client} {f : Fact}
    (h : Extends c new app app') (hnew : ∀ x f, new x → CarriedBy x f → R f)
    (hf : copying.holds app' c' f) : copying.holds app c' f ∨ c' = c ∧ R f := by
  rcases hf with ⟨uid, hu, hfilled, hf⟩ | ⟨x, hx, hf⟩
  · rw [h.currentUser_eq] at hu
    rw [h.user_eq] at hfilled hf
    exact .inl (.inl ⟨uid, hu, hfilled, hf⟩)
  · rcases h.listed c' x hx with hx | ⟨hc, hx⟩
    · exact .inl (.inr ⟨x, hx, hf⟩)
    · exact .inr ⟨hc, hnew x f hx hf⟩

/-- A press that writes the singleton into a record. -/
def Press.presents : Press → Bool
  | .sendFrienRequestBtnPressed | .addUsertoFriendsBtnPressed => true
  | _ => false

/-- Who sends or accepts has loaded the own profile, and no write to a profile is rejected. -/
def Presents (s : SState) : SLabel → Prop
  | .press a _ => a.press.presents = true → (s.app.device a.client).user ≠ {}
  | .commit i false => ∀ w ∈ s.writes[i]?, w.op.touches .users = false
  | .run .. | .commit _ true | .serve .. | .die _ => True

instance (s : SState) : DecidablePred (Presents s)
  | .press a _ => inferInstanceAs (Decidable (a.press.presents = true → _))
  | .commit i false => inferInstanceAs (Decidable (∀ w ∈ s.writes[i]?, _))
  | .run .. | .commit _ true | .serve .. | .die _ => isTrue trivial

/-- What a record gets is in the memory of its writer. -/
theorem holds_of_wrote {a : Action} {e : Env} {f : Fact}
    (hl : a.press.presents = true → (s.app.device a.client).user ≠ {})
    (hw : Wrote P s.app (.pressed a e) op) (hf : copying.copies op f) :
    copying.holds s.app a.client f := by
  obtain ⟨l, v, rfl, hsource, hf⟩ := hf
  cases hw with
  | edit => exact absurd rfl hsource
  | request hu hchosen hpeer =>
    obtain ⟨side, hstated⟩ := hf
    cases side with
    | fromIdUser =>
      exact .inl ⟨_, hu, hl rfl, hstated.1, (Text.ofParams_params ..).symm.trans hstated.2⟩
    | toIdUser =>
      exact .inr ⟨_, .inr (.inr (.inr (.inl hchosen))), carriedBy_of_paramsOf hpeer hstated⟩
  | friend hu hselected hpeer =>
    obtain ⟨side, hstated⟩ := hf
    cases side with
    | fromIdUser =>
      exact .inr ⟨_, .inr (.inr (.inr (.inr hselected))), carriedBy_of_paramsOf hpeer hstated⟩
    | toIdUser =>
      exact .inl ⟨_, hu, hl rfl, hstated.1, (Text.ofParams_params ..).symm.trans hstated.2⟩
  | @index ev k v hk => cases k <;> exact nomatch hk, hf

/-- A callback writes profiles and entries, and copies nothing. -/
theorem not_copies_of_wrote {t : Task Loc Client Cb} {e : Env} {f : Fact}
    (hw : Wrote P app (.ran t e) op) : ¬ copying.copies op f := by
  rintro ⟨l, v, rfl, hsource, hf⟩
  cases hw with
  | registration | picture => exact hsource rfl
  | @index ev k v hk => cases k <;> exact nomatch hk, hf

theorem holds_of_press {p : Press} {app' : App} {c' : Client} {f : Fact}
    (hl : ∀ uid ∈ p.signsIn, (app.device c).user = {} ∨ app.currentUser c = some uid)
    (h : Pressed c app p app') (hf : copying.holds app' c' f) : copying.holds app c' f := by
  cases h with
  | kept hext =>
    have hcases := holds_of_extends (R := fun f => copying.holds app c f) hext
      (fun x f hx hf => .inr ⟨x, hx, hf⟩) hf
    rcases hcases with hf | ⟨rfl, hf⟩
    · exact hf
    · exact hf
  | @signedIn uid p d hp huser hu =>
    rcases hf with ⟨v, hv, hfilled, hf⟩ | hf
    · by_cases hc : c' = c
      · subst hc
        rw [App.currentUser, App.setDevice_self, hu] at hv
        rw [App.setDevice_self, huser] at hfilled hf
        cases hv
        rcases hl _ hp with hdefault | hsame
        · exact absurd hdefault hfilled
        · exact .inl ⟨_, hsame, hfilled, hf⟩
      · rw [App.currentUser, App.setDevice_ne hc] at hv
        rw [App.setDevice_ne hc] at hfilled hf
        exact .inl ⟨v, hv, hfilled, hf⟩
    · exact .inr hf
  | @signedOut d huser hu =>
    rcases hf with ⟨v, hv, hfilled, hf⟩ | ⟨x, hx, hf⟩
    · by_cases hc : c' = c
      · subst hc
        rw [App.currentUser, App.dismiss_device, App.setDevice_self, hu] at hv
        cases hv
      · rw [App.currentUser, App.dismiss_device, App.setDevice_ne hc] at hv
        rw [App.dismiss_device, App.setDevice_ne hc] at hfilled hf
        exact .inl ⟨v, hv, hfilled, hf⟩
    · exact .inr ⟨x, listed_of_dismiss hx, hf⟩

theorem exists_profile_of_credentials {directory : Option Directory} {user : Accounts.User}
    (h : Accounts.credentials (directory.bind (Directory.profile · uid)) = some user) :
    ∃ directory', directory = some directory' ∧ ∃ dict,
      Directory.profile directory' uid = some dict ∧
        Accounts.credentials (some dict) = some user := by
  cases hdict : directory.bind (Directory.profile · uid) with
  | none =>
    rw [hdict] at h
    cases h
  | some dict =>
    obtain ⟨directory', rfl, hprofile⟩ := Option.bind_eq_some_iff.1 hdict
    rw [hdict] at h
    exact ⟨directory', rfl, dict, hprofile, h⟩

theorem holds_of_callback {cb : Cb} {input : Input Loc} {c' : Client} {f : Fact}
    (hl : ∀ uid ∈ cb.loads, (app.device c).trapped = false → ∀ v ∈ app.currentUser c, v = uid)
    (h : Called c app cb input app') (hf : copying.holds app' c' f) :
    copying.holds app c' f ∨ c' = c ∧ copying.tells input f := by
  cases h with
  | kept hext => exact holds_of_extends hext (fun x f => tells_of_reports) hf
  | @loaded uid k directory d htrapped hread hu =>
    rcases hf with ⟨v, hv, hfilled, huid, hf⟩ | hf
    · by_cases hc : c' = c
      · subst hc
        rw [App.currentUser, App.setDevice_self, hu] at hv
        rw [App.setDevice_self] at hf
        obtain rfl := hl uid rfl htrapped v hv
        obtain ⟨directory, rfl, user, hprofile, hread⟩ := exists_profile_of_credentials hread
        refine .inr ⟨rfl, v, huid, user, hprofile, ?_⟩
        rw [← hf]
        exact stringAt_of_credentials f.text hread
      · rw [App.currentUser, App.setDevice_ne hc] at hv
        rw [App.setDevice_ne hc] at hfilled hf
        exact .inl (.inl ⟨v, hv, hfilled, huid, hf⟩)
    · exact .inl (.inr hf)

theorem holds_of_die {c' : Client} {f : Fact} (hf : copying.holds (die c app) c' f) :
    c' ≠ c ∧ copying.holds app c' f := by
  rcases hf with ⟨uid, hu, hfilled, hf⟩ | ⟨x, hx, hf⟩
  · have hdevice : (die c app).device = (app.setDevice c (Accounts.relaunched (app.device c))).device :=
      rfl
    rw [App.currentUser, hdevice] at hu
    rw [hdevice] at hfilled hf
    by_cases hc : c' = c
    · subst hc
      rw [App.setDevice_self] at hfilled
      exact absurd rfl hfilled
    · rw [App.setDevice_ne hc] at hu hfilled hf
      exact ⟨hc, .inl ⟨uid, hu, hfilled, hf⟩⟩
  · obtain ⟨hc, hx⟩ := listed_of_die hx
    exact ⟨hc, .inr ⟨x, hx, hf⟩⟩

/-- In these runs the devices copy what they have read. -/
theorem copies_of_presents (hsame : SameSession s l) (hl : Presents s l) :
    copying.Copies (program P) s l where
  press a e c app cmds he hact := by
    subst he
    obtain ⟨⟨app', cmds'⟩, hpress, he⟩ := Option.map_eq_some_iff.1 hact
    cases he
    obtain ⟨c, p⟩ := a
    refine ⟨fun c' f => holds_of_press hsame (pressed_of_press hpress), fun op cb hcmd f => ?_⟩
    exact holds_of_wrote hl (wrote_of_press (e := e) hpress hcmd)
  run i t e app cmds he ht hrun := by
    subst he
    refine ⟨fun c' f => holds_of_callback (hsame t ht) (called_of_callback hrun),
      fun op cb hcmd f hf => ?_⟩
    exact absurd hf (not_copies_of_wrote (wrote_of_callback (e := e) hrun hcmd))
  reject i w he hw f hf := by
    subst he
    obtain ⟨l, v, hop, rfl, -⟩ := hf
    have htouch := hl w hw
    rw [hop] at htouch
    exact absurd htouch (by simp [Op.touches])
  die c c' f he hf := holds_of_die hf

/-! ## Pictures and names -/

theorem valuesIn_single {K : UID → Text → String → Prop} {dict : Dict}
    (h : ∀ text value, stringAt (some dict) text.field = some value → K uid text value) :
    Tree.All (ValuesIn K) (Directory.single uid dict) := by
  refine all_valuesIn.2 ?_
  rintro uid' text value ⟨user, huser, hvalue⟩
  by_cases hu : uid' = uid
  · subst hu
    rw [Directory.profile_single] at huser
    cases huser
    exact h text value hvalue
  · rw [Directory.profile_single_ne hu] at huser
    cases huser

/-- A picture is the string of a download URL. -/
def URLOfPicture (P : Platform) (_ : UID) (text : Text) (value : String) : Prop :=
  text = .image → ∃ url, value = P.absoluteString url

/-- The pictures of the profiles are download URLs, and the users of a record are those whose ids
it has. -/
def WellFormed (P : Platform) : (l : Loc) → Val l → Prop
  | .users, directory => Tree.All (ValuesIn (URLOfPicture P)) directory
  | .friend (.friendRequest _), dict =>
    (dict : RequestDict).fromIdUser.uid = dict.fromId ∧ dict.toIdUser.uid = dict.toId
  | .friend (.friends _), dict =>
    (dict : FriendDict).fromIdUser.uid = dict.fromId ∧ dict.toIdUser.uid = dict.toId
  | .friend (.userFriendRequest ..), _ | .friend (.userFriends ..), _ => True

theorem mergeable_wellFormed : Mergeable (WellFormed P) := by
  rintro (_ | l) new old hnew hold
  · exact Tree.All.foldl_update (mergeable_valuesIn _) hold fun user huser =>
      hnew user.1 user.2 (AList.mem_lookup_iff.2 huser)
  · cases l <;> exact hnew

theorem stores_of_wrote {ev : SEvent} (hw : Wrote P app ev op) : op.Stores (WellFormed P) := by
  rintro l v rfl
  cases hw with
  | @edit c p e uid dict hu hdict =>
    refine valuesIn_single fun text value hvalue htext => ?_
    subst htext
    cases p <;> cases hdict <;> cases hvalue
  | registration | picture =>
    refine valuesIn_single fun text value hvalue htext => ?_
    subst htext
    cases hvalue
    exact ⟨_, rfl⟩
  | request hu hchosen hpeer => exact ⟨rfl, rfl⟩
  | friend hu hselected hpeer => exact ⟨rfl, rfl⟩
  | @index ev k v hk =>
    cases k with
    | userFriendRequest | userFriends => trivial
    | friendRequest | friends => exact hk.elim

/-! ## Runs -/

/-- The profile of `uid` has the value. -/
def HeldNow (s : SState) (uid : UID) (text : Text) (value : String) : Prop :=
  ∃ directory, s.tree.lookup .users = some directory ∧ HeldBy directory uid text value

/-- In a state of the run the profile of `uid` had the value. -/
def HeldBefore (P : Platform) (s₀ s : SState) (uid : UID) (text : Text) (value : String) : Prop :=
  ∃ t, Reaches (step (program P)) (fun _ _ => True) s₀ t ∧
    Reaches (step (program P)) (fun _ _ => True) t s ∧ HeldNow t uid text value

theorem heldIn_iff_heldNow {text : Text} {value : String} :
    copying.HeldIn s.tree ⟨some uid, text, value⟩ ↔ HeldNow s uid text value := by
  constructor
  · intro h
    obtain ⟨directory, uid', hdirectory, huid, hheld⟩ := heldIn_iff.1 h
    obtain rfl := huid uid rfl
    exact ⟨directory, hdirectory, hheld⟩
  · rintro ⟨directory, hdirectory, hheld⟩
    exact heldIn_iff.2 ⟨directory, uid, hdirectory, fun u hu => (Option.some.inj hu).symm, hheld⟩

/-- The user has values that the profile had, and a picture that parses. -/
structure RealSnapshot (P : Platform) (s₀ s : SState) (user : UserParams) : Prop where
  held : ∀ text : Text, HeldBefore P s₀ s user.uid text (text.ofParams user)
  parses : P.parses user.image = true

/-- The records have real users under the right ids, and every picture on a screen parses. -/
structure RealSnapshots (P : Platform) (s₀ s : SState) : Prop where
  request : ∀ key (dict : RequestDict), s.tree.lookup (.friend (.friendRequest key)) = some dict →
    (dict.fromIdUser.uid = dict.fromId ∧ dict.toIdUser.uid = dict.toId) ∧
      ∀ side, RealSnapshot P s₀ s (dict.side side)
  friend : ∀ key (dict : FriendDict), s.tree.lookup (.friend (.friends key)) = some dict →
    (dict.fromIdUser.uid = dict.fromId ∧ dict.toIdUser.uid = dict.toId) ∧
      ∀ side, RealSnapshot P s₀ s (dict.side side)
  shown : ∀ c x, Listed s.app c x → P.parses x.userImage = true

theorem not_holds_of_start (hs : Start s) (c : Client) (f : Fact) : ¬ copying.holds s.app c f := by
  rintro (⟨uid, -, hfilled, -⟩ | ⟨x, hx, -⟩)
  · exact hfilled (hs.user c)
  · exact hs.listed c x hx

section Run

variable {ok : SState → SLabel → Prop} (hs : Start s₀) (htree : s₀.tree = ∅)
  (h : Reaches (step (program P)) ok s₀ s)
include hs htree h

theorem wellFormed_of_reaches : s.tree.All (WellFormed P) := by
  refine all_of_reaches mergeable_wellFormed (fun l v hv => by simp [htree] at hv)
    (fun t ht w hw => ?_) h
  obtain ⟨app, ev, hwrote⟩ := wrote_of_reaches hs.initial ht w hw
  exact stores_of_wrote hwrote

/-- What a device sees in a profile as a picture parses. -/
theorem parses_of_visible {f : Fact} (hf : copying.Visible s f) (htext : f.text = .image) :
    P.parses f.value = true := by
  have hall : ∀ t : Realtime.Tree Loc, t.All (WellFormed P) → copying.HeldIn t f →
      P.parses f.value = true := by
    intro t ht hheld
    obtain ⟨directory, uid, hv, -, hheld⟩ := heldIn_iff.1 hheld
    obtain ⟨url, hurl⟩ := all_valuesIn.1 (ht .users directory hv) uid f.text f.value hheld htext
    rw [hurl]
    exact P.parses_absoluteString url
  rcases hf with hf | ⟨c, hf⟩
  · exact hall _ (wellFormed_of_reaches hs htree h) hf
  · refine hall _ (all_view mergeable_wellFormed (wellFormed_of_reaches hs htree h) ?_) hf
    intro w hw
    obtain ⟨app, ev, hwrote⟩ := wrote_of_reaches hs.initial h w hw
    exact stores_of_wrote hwrote

end Run

/-- Where everybody sends and accepts with the own profile loaded, the records have copies of
profiles and nothing else. -/
theorem realSnapshots_of_reaches (hs : Start s₀) (htree : s₀.tree = ∅)
    (h : Reaches (step (program P)) (fun s l => SameSession s l ∧ Presents s l) s₀ s) :
    RealSnapshots P s₀ s := by
  have hfaithful : copying.Faithful s :=
    Copying.faithful_of_reaches merges (.initial hs.initial htree (not_holds_of_start hs))
      (fun t l _ hl => copies_of_presents hl.1 hl.2) h
  have hwell := wellFormed_of_reaches hs htree h
  have hreal : ∀ l v (user : UserParams), s.tree.lookup l = some v →
      (∀ f, StatedBy user f → copying.shows l v f) → RealSnapshot P s₀ s user := by
    intro l v user hv hstated
    have hheld : ∀ text : Text, HeldBefore P s₀ s user.uid text (text.ofParams user) := by
      intro text
      have htold := hfaithful.tree l v hv ⟨some user.uid, text, text.ofParams user⟩
        (hstated _ ⟨fun u hu => (Option.some.inj hu).symm, rfl⟩)
      obtain ⟨t, ht, hts, hheld⟩ := Copying.held_of_told overwrites hs.initial h htold
      exact ⟨t, ht.mono fun _ _ _ => trivial, hts.mono fun _ _ _ => trivial,
        heldIn_iff_heldNow.1 hheld⟩
    refine ⟨hheld, ?_⟩
    obtain ⟨t, ht, -, himage⟩ := hheld .image
    exact parses_of_visible (f := ⟨some user.uid, .image, user.image⟩) hs htree ht
      (.inl (heldIn_iff_heldNow.2 himage)) rfl
  refine ⟨fun key dict hdict => ⟨hwell _ _ hdict, fun side => ?_⟩,
    fun key dict hdict => ⟨hwell _ _ hdict, fun side => ?_⟩, fun c x hx => ?_⟩
  · exact hreal _ _ _ hdict fun f hf => ⟨side, hf⟩
  · exact hreal _ _ _ hdict fun f hf => ⟨side, hf⟩
  · have hsighted := Copying.sighted_of_reaches merges hs.initial htree (not_holds_of_start hs)
      (fun t l _ hl => copies_of_presents hl.1 hl.2) h
    obtain ⟨t, ht, -, hvisible⟩ := hsighted.memory c ⟨none, .image, x.userImage⟩
      (.inr ⟨x, hx, (fun _ hu => by cases hu), rfl⟩)
    exact parses_of_visible hs htree ht hvisible rfl

/-! ## Alice and Bob make friends -/

/-- The server takes Bob's request, Alice finds it in her list, and she accepts. -/
def accepting : List SLabel := [
  .commit 0 true, .commit 0 true, .run 0 ⟨"15", 15⟩, .commit 0 true, .run 0 ⟨"16", 16⟩,
  .press ⟨0, .search .incoming ""⟩ ⟨"17", 17⟩, .serve 0 true, .run 0 ⟨"18", 18⟩, .serve 0 true,
  .run 0 ⟨"19", 19⟩, .serve 0 true, .run 0 ⟨"20", 20⟩, .serve 0 true, .run 0 ⟨"21", 21⟩,
  .press ⟨0, .didSelectItemAt .incoming 0⟩ ⟨"22", 22⟩,
  .press ⟨0, .addUsertoFriendsBtnPressed⟩ ⟨"f", 23⟩, .commit 0 true, .commit 0 true,
  .run 0 ⟨"24", 24⟩, .commit 0 true, .run 0 ⟨"25", 25⟩, .serve 0 true, .run 0 ⟨"26", 26⟩]

theorem accepting_runs : (exec (step (program sdk)) (fun s l => SameSession s l ∧ Presents s l)
    start (registering ++ asking ++ accepting)).isSome = true := by
  decide +kernel

theorem realSnapshots_accepting :
    RealSnapshots sdk start ((exec (step (program sdk))
      (fun s l => SameSession s l ∧ Presents s l) start
      (registering ++ asking ++ accepting)).get accepting_runs) :=
  realSnapshots_of_reaches start_start rfl (.of_exec (Option.some_get _).symm)

/-! ## A launch -/

/-- The server takes Bob's request. Alice launches the app again, finds the request in her list and
accepts it, all before her profile is there. -/
def launching : List SLabel := [
  .commit 0 true, .commit 0 true, .run 0 ⟨"15", 15⟩, .commit 0 true, .run 0 ⟨"16", 16⟩, .die 0,
  .press ⟨0, .account .loginDidAppear⟩ ⟨"17", 17⟩, .press ⟨0, .account .homeDidAppear⟩ ⟨"18", 18⟩,
  .press ⟨0, .search .friends ""⟩ ⟨"19", 19⟩, .press ⟨0, .search .incoming ""⟩ ⟨"20", 20⟩,
  .serve 2 true, .run 0 ⟨"21", 21⟩, .serve 2 true, .run 0 ⟨"22", 22⟩, .serve 2 true,
  .run 0 ⟨"23", 23⟩, .serve 2 true, .run 0 ⟨"24", 24⟩,
  .press ⟨0, .didSelectItemAt .incoming 0⟩ ⟨"25", 25⟩,
  .press ⟨0, .addUsertoFriendsBtnPressed⟩ ⟨"f", 26⟩, .commit 0 true]

theorem launching_runs : (exec (step (program sdk)) (fun _ _ => True) start
    (registering ++ asking ++ launching)).isSome = true := by
  decide +kernel

def launched : SState :=
  (exec (step (program sdk)) (fun _ _ => True) start (registering ++ asking ++ launching)).get
    launching_runs

/-- The friendship carries the placeholders for Alice. -/
theorem not_realSnapshots : ¬ ∀ s₀ s, Start s₀ → s₀.tree = ∅ →
    Reaches (step (program sdk)) (fun _ _ => True) s₀ s → RealSnapshots sdk s₀ s := by
  intro h
  have hreal := h start launched start_start rfl (.of_exec (Option.some_get _).symm)
  have hdict : launched.tree.lookup (.friend (.friends "f")) = some
      (⟨"bob", ⟨"bob", "User name", "https://profile_images/bob", "bob@mail", "User phone", true⟩,
        "alice", ⟨"alice", "User name", "User image", "User email", "User phone", true⟩, 26,
        true⟩ : FriendDict) := by
    rfl
  have hparses := ((hreal.friend "f" _ hdict).2 .toIdUser).parses
  revert hparses
  decide

end FLChat.Sessions
