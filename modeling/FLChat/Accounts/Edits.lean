import FLChat.Accounts.Directory
import FLChat.Accounts.SignIn
import FLChat.Realtime.Ordered

/-!
# The edits of `SettingsVC`

A name, a number and a switch are written at once, so the last edit of each wins. A picture is
uploaded to the one path of the account, its URL is read afterwards and written then, and several
pictures may be under way. So a picture wins exactly if its upload is the last one to be stored, and
the URL that arrives last leads to it (`lastEditsWin_iff`); the uploads of two pictures may change
places (`not_lastEditsWin`). The profile is read after each write, so the singleton always ends up
with what is in the database.
-/

namespace FLChat.Accounts

open Realtime
open FLChat.Messages (Data UIImage)

variable {P : Platform} {follows : DownloadURL → Bool} {s₀ s s' : AState} {l : ALabel} {c : Client}
  {uid : UID} {d d' : Device} {d₀ : Dict} {cmds : List Command} {p : Press} {log : List AEvent}
  {ev : AEvent} {t : Task Loc Client Cb} {f : Field}

/-! ## The last edits -/

/-- The value that an edit gives to a field. -/
def editOf (f : Field) : AEvent → Option Any
  | .pressed a _ => a.press.dict.bind (· f)
  | _ => none

def lastEdit (f : Field) (log : List AEvent) : Option Any := log.findSome? (editOf f)

/-- The picture that an event chooses. -/
def pickOf : AEvent → Option UIImage
  | .pressed ⟨_, .didFinishPickingMediaWithInfo image⟩ _ => some image
  | _ => none

def lastPicked (log : List AEvent) : Option UIImage := log.findSome? pickOf

/-- The picture of `uid` that an event stores. -/
def storedOf (uid : UID) : AEvent → Option Data
  | .served _ (.putData p data _) true => if p = profileImagesPath uid then some data else none
  | _ => none

def lastStored (uid : UID) (log : List AEvent) : Option Data := log.findSome? (storedOf uid)

/-- The URL that arrives with an event. -/
def urlOf : AEvent → Option DownloadURL
  | .ran ⟨_, .newURLFetched _, .url u⟩ _ => u
  | _ => none

def lastURL (log : List AEvent) : Option DownloadURL := log.findSome? urlOf

/-- What an event writes into the profile. -/
def writtenBy (P : Platform) : AEvent → Option Dict
  | .pressed a _ => a.press.dict
  | .ran ⟨_, .newURLFetched _, .url (some u)⟩ _ => some (changeUserImage (P.absoluteString u))
  | _ => none

/-- A profile after the events of the log. -/
def edited (P : Platform) (d₀ : Dict) : List AEvent → Dict
  | [] => d₀
  | ev :: log =>
    match writtenBy P ev with
    | none => edited P d₀ log
    | some dict => dict.updateChildValues (edited P d₀ log)

theorem wellTyped_writtenBy {dict : Dict} (h : writtenBy P ev = some dict) : WellTyped dict := by
  unfold writtenBy at h
  split at h
  · next a _ =>
    obtain ⟨c, p⟩ := a
    cases p with
    | changeNameBtnPressed | changePhoneBtnPressed | pushNotificationSoundBtnPressed
    | pushNotificationBtnPressed =>
      cases h
      exact wellTyped_single rfl
    | _ => cases h
  · cases h
    exact wellTyped_single rfl
  · cases h

theorem complete_edited (h : Complete (some d₀)) (log : List AEvent) :
    Complete (some (edited P d₀ log)) := by
  induction log with
  | nil => exact h
  | cons ev log ih =>
    unfold edited
    split
    · exact ih
    · next dict hdict =>
      exact fun f => (readable_updateChildValues (wellTyped_writtenBy hdict)).2 (.inl (ih f))

/-- The presses do not write pictures. -/
theorem dict_image {dict : Dict} (h : p.dict = some dict) : dict .image = none := by
  cases p with
  | changeNameBtnPressed | changePhoneBtnPressed | pushNotificationSoundBtnPressed
  | pushNotificationBtnPressed =>
    cases h
    rfl
  | _ => cases h

/-- What an event writes is an edit or the URL of a picture. -/
theorem writtenBy_apply (f : Field) : (writtenBy P ev).bind (· f) =
    if f = .image then (urlOf ev).map fun u => .string (P.absoluteString u) else editOf f ev := by
  cases ev with
  | pressed a e =>
    change a.press.dict.bind (· f) = _
    split
    · next hf =>
      subst hf
      cases hdict : a.press.dict with
      | none => rfl
      | some dict => exact dict_image hdict
    · rfl
  | ran t e =>
    obtain ⟨c', cb, input⟩ := t
    cases cb with
    | newURLFetched uid' =>
      cases input with
      | url u =>
        cases u with
        | none => simp [writtenBy, urlOf, editOf]
        | some u =>
          by_cases hf : f = .image <;>
            simp [writtenBy, urlOf, editOf, changeUserImage, Dict.single, hf]
      | acked | childAdded | value | stored => simp [writtenBy, urlOf, editOf]
    | credentialsRead | imageStored | urlFetched | newImageStored =>
      simp [writtenBy, urlOf, editOf]
  | resolved | served | died => simp [writtenBy, urlOf, editOf]

theorem edited_cons (ev : AEvent) (log : List AEvent) (f : Field) :
    edited P d₀ (ev :: log) f = ((writtenBy P ev).bind (· f)).or (edited P d₀ log f) := by
  rw [edited]
  cases writtenBy P ev <;> rfl

/-- A field has the value of its last edit. -/
theorem edited_of_ne (hf : f ≠ .image) (log : List AEvent) :
    edited P d₀ log f = (lastEdit f log).or (d₀ f) := by
  induction log with
  | nil => rfl
  | cons ev log ih =>
    rw [edited_cons, writtenBy_apply, if_neg hf, ih, lastEdit, lastEdit, findSome?_cons_or,
      Option.or_assoc]

/-- The picture is that of the URL that arrived last. -/
theorem edited_image (log : List AEvent) : edited P d₀ log .image =
    ((lastURL log).map fun u => .string (P.absoluteString u)).or (d₀ .image) := by
  induction log with
  | nil => rfl
  | cons ev log ih =>
    rw [edited_cons, writtenBy_apply, if_pos rfl, ih, lastURL, lastURL, findSome?_cons_or,
      ← Option.or_assoc]
    cases urlOf ev <;> rfl

/-! ## What is under way -/

/-- The reads of the profile of `uid` by `c`. -/
def profileReads (c : Client) (uid : UID) : Channel Loc Client Cb Response where
  client := c
  loc := .users uid
  read
    | .credentialsRead k => some k
    | _ => none

/-- A picture was chosen, and one was stored. -/
def Uploaded (uid : UID) (log : List AEvent) : Prop :=
  (lastPicked log).isSome = true ∧ (lastStored uid log).isSome = true

/-- A request of `SettingsVC`. -/
inductive Asked (uid : UID) (log : List AEvent) : Ask Loc Cb Data → Prop
  | read (k : Response) : Asked uid log (.single (.users uid) (.credentialsRead k))
  | upload (data : Data) (h : (lastPicked log).isSome = true) :
    Asked uid log (.putData (profileImagesPath uid) data (.newImageStored uid))
  | url (h : Uploaded uid log) :
    Asked uid log (.downloadURL (profileImagesPath uid) (.newURLFetched uid))

/-- An answer that is due. Nothing fails. -/
inductive Answered (c : Client) (uid : UID) (log : List AEvent) : Task Loc Client Cb → Prop
  | read (k : Response) (value : Option Dict) (h : Complete value) :
    Answered c uid log ⟨c, .credentialsRead k, .value (.users uid) value⟩
  | stored (h : Uploaded uid log) : Answered c uid log ⟨c, .newImageStored uid, .stored true⟩
  | url (u : DownloadURL) (hu : u.path = profileImagesPath uid) (h : Uploaded uid log) :
    Answered c uid log ⟨c, .newURLFetched uid, .url (some u)⟩

theorem isSome_cons {α β : Type} {g : α → Option β} {xs : List α}
    (h : (xs.findSome? g).isSome = true) (x : α) : ((x :: xs).findSome? g).isSome = true := by
  rw [findSome?_cons_or, Option.isSome_or, h, Bool.or_true]

theorem Uploaded.cons (h : Uploaded uid log) (ev : AEvent) : Uploaded uid (ev :: log) :=
  ⟨isSome_cons h.1 ev, isSome_cons h.2 ev⟩

theorem Asked.cons {a : Ask Loc Cb Data} (h : Asked uid log a) (ev : AEvent) :
    Asked uid (ev :: log) a := by
  cases h with
  | read k => exact .read k
  | upload data h => exact .upload data (isSome_cons h ev)
  | url h => exact .url (h.cons ev)

theorem Answered.cons (h : Answered c uid log t) (ev : AEvent) : Answered c uid (ev :: log) t := by
  cases h with
  | read k value h => exact .read k value h
  | stored h => exact .stored (h.cons ev)
  | url u hu h => exact .url u hu (h.cons ev)

/-- What an event issues: the change of the profile and a read, or a request for a picture. -/
structure Effect (P : Platform) (c : Client) (uid : UID) (ev : AEvent) (log : List AEvent)
    (cmds : List Command) : Prop where
  writes : newWrites c cmds =
    (writtenBy P ev).toList.map fun dict => ⟨c, .update (.users uid) dict, none⟩
  asks : ∀ a, .ask a ∈ cmds → Asked uid (ev :: log) a
  reads : (writtenBy P ev).isSome = true →
    ∃ k, .ask (.single (.users uid) (.credentialsRead k)) ∈ cmds
  uploads : ∀ image data, pickOf ev = some image → P.jpegData image = some data →
    .ask (.putData (profileImagesPath uid) data (.newImageStored uid)) ∈ cmds

theorem changeUser_eq (hu : d.currentUser = some uid) (dict : Dict) : changeUser dict d =
    (d, [updateUserIntoDatabaseWithUID uid dict,
      .ask (.single (.users uid) (.credentialsRead .setUserSettings))]) := by
  simp [changeUser, hu, setUserSettings, getUserCredentialsFromDatabase]

/-- A field is written, and the profile is read again. -/
theorem effect_change {dict : Dict} (hev : writtenBy P ev = some dict) (hpick : pickOf ev = none)
    {k : Response} : Effect P c uid ev log [updateUserIntoDatabaseWithUID uid dict,
      .ask (.single (.users uid) (.credentialsRead k))] where
  writes := by
    rw [hev]
    rfl
  asks a ha := by
    rcases List.mem_cons.1 ha with ha | ha
    · cases ha
    · cases List.mem_singleton.1 ha
      exact .read _
  reads _ := ⟨k, List.mem_cons_of_mem _ List.mem_cons_self⟩
  uploads image data himage := by
    rw [hpick] at himage
    cases himage

/-- A request, and no write. -/
theorem effect_ask (hev : writtenBy P ev = none) (hpick : pickOf ev = none) {a : Ask Loc Cb Data}
    (ha : Asked uid (ev :: log) a) : Effect P c uid ev log [.ask a] where
  writes := by
    rw [hev]
    rfl
  asks a' ha' := by
    cases List.mem_singleton.1 ha'
    exact ha
  reads hsome := by
    rw [hev] at hsome
    cases hsome
  uploads image data himage := by
    rw [hpick] at himage
    cases himage

theorem effect_nil (hev : writtenBy P ev = none)
    (hpick : ∀ image ∈ pickOf ev, P.jpegData image = none) : Effect P c uid ev log [] where
  writes := by
    rw [hev]
    rfl
  asks _ ha := by cases ha
  reads hsome := by
    rw [hev] at hsome
    cases hsome
  uploads image data himage hdata := by
    rw [hpick image himage] at hdata
    cases hdata

/-- A press in `SettingsVC`. -/
theorem effect_of_press {a : Action} {e : Env} (h : press P a.press d = some (d', cmds))
    (hp : a.press.edits = true ∨ a.press = .settingsDidAppear) (hu : d.currentUser = some uid) :
    d' = d ∧ Effect P c uid (.pressed a e) log cmds := by
  obtain ⟨c', p⟩ := a
  cases p with
  | changeNameBtnPressed | changePhoneBtnPressed | pushNotificationSoundBtnPressed
  | pushNotificationBtnPressed =>
    have he := (changeUser_of_press h rfl).2
    rw [changeUser_eq hu] at he
    cases he
    exact ⟨rfl, effect_change rfl rfl⟩
  | didFinishPickingMediaWithInfo image =>
    unfold press at h
    split at h
    · cases h
    obtain ⟨-, he⟩ := Option.ite_none_right_eq_some.1 h
    have he := Option.some.inj he
    simp only [uploadNewUserImageIntoDB, hu] at he
    split at he
    · next hdata =>
      cases he
      exact ⟨rfl, effect_nil rfl fun image' himage => by cases himage; exact hdata⟩
    · next data hdata =>
      cases he
      refine ⟨rfl, rfl, fun a ha => ?_, fun hsome => ?_, fun image' data' himage hdata' => ?_⟩
      · cases List.mem_singleton.1 ha
        exact .upload data rfl
      · cases hsome
      · cases himage
        cases hdata.symm.trans hdata'
        exact List.mem_cons_self
  | settingsDidAppear =>
    unfold press at h
    split at h
    · cases h
    obtain ⟨-, he⟩ := Option.ite_none_right_eq_some.1 h
    simp only [setUserSettings, getUserCredentialsFromDatabase, hu] at he
    cases he
    exact ⟨rfl, effect_ask rfl rfl (.read _)⟩
  | _ => rcases hp with hp | hp <;> cases hp

/-- An answer. -/
theorem effect_of_callback {e : Env} (h : callback P t.cb t.input d = (d', cmds))
    (ht : Answered c uid log t) (hd : d.trapped = false) (hhome : d.home = true)
    (hu : d.currentUser = some uid) :
    (d'.currentUser = some uid ∧ d'.home = true ∧ d'.trapped = false) ∧
      Effect P c uid (.ran t e) log cmds := by
  cases ht with
  | read k value hvalue =>
    simp only [callback, hd, Bool.false_eq_true, ↓reduceIte, Prod.mk.injEq] at h
    obtain ⟨rfl, rfl⟩ := h
    refine ⟨⟨?_, ?_, (trapped_credentialsRead hvalue).trans hd⟩, effect_nil rfl ?_⟩
    · unfold credentialsRead
      split
      · exact hu
      · cases k <;> exact hu
    · unfold credentialsRead
      split
      · exact hhome
      · cases k
        · rfl
        · exact hhome
        · exact hhome
    · intro image himage
      cases himage
  | stored hup =>
    simp only [callback, hd, Bool.false_eq_true, ↓reduceIte, Prod.mk.injEq] at h
    obtain ⟨rfl, rfl⟩ := h
    exact ⟨⟨hu, hhome, hd⟩, effect_ask rfl rfl (.url (hup.cons _))⟩
  | url u hpath hup =>
    simp only [callback, hd, Bool.false_eq_true, ↓reduceIte, newURLFetched, setUserSettings,
      getUserCredentialsFromDatabase, hu, Prod.mk.injEq] at h
    obtain ⟨rfl, rfl⟩ := h
    exact ⟨⟨hu, hhome, hd⟩, effect_change rfl rfl⟩

/-! ## Runs -/

/-- The profile that an answer brings. -/
def replied : Task Loc Client Cb → Option (Option User)
  | ⟨_, .credentialsRead _, .value (.users _) value⟩ => some (credentials value)
  | _ => none

/-- What the singleton of `c` holds when the answers that are due have been run. -/
def newest (c : Client) (s : AState) : Option User :=
  (s.tasks.filterMap replied).getLast?.getD (some (s.app c).user)

/-- A read waits, or the singleton is about to hold what `c` sees. -/
def Fresh (c : Client) (uid : UID) (s : AState) : Prop :=
  (∃ k, (c, .single (.users uid) (.credentialsRead k)) ∈ s.asks) ∨
    newest c s = credentials ((s.view c).lookup (.users uid))

/-- A picture is under way. -/
def PictureWaits (s : AState) : Prop :=
  (∃ x ∈ s.asks, x.2.cb.account.isSome = true) ∨ ∃ t ∈ s.tasks, t.cb.account.isSome = true

/-- The presses are those of `c` in `SettingsVC`. -/
def InSettings (c : Client) : ALabel → Prop
  | .press a _ => a.client = c ∧ (a.press.edits = true ∨ a.press = .settingsDidAppear)
  | .run .. | .commit .. | .serve .. | .die _ => True

/-- The steps of a run in which `c` does nothing but edit, nothing fails, and the profile is read in
order. -/
structure Edits (c : Client) (uid : UID) (s : AState) (l : ALabel) : Prop where
  presses : InSettings c l
  succeeds : l.succeeds = true
  inOrder : (profileReads c uid).InOrder s l

/-- `SettingsVC` is presented for `uid`, with a complete profile. All that is under way are reads of
it. -/
structure Opened (c : Client) (uid : UID) (s : AState) : Prop where
  currentUser : (s.app c).currentUser = some uid
  home : (s.app c).home = true
  trapped : (s.app c).trapped = false
  writes : s.writes = []
  asks : ∀ x ∈ s.asks, ∃ k, x = (c, .single (.users uid) (.credentialsRead k))
  tasks : ∀ t ∈ s.tasks, ∃ k value, t = ⟨c, .credentialsRead k, .value (.users uid) value⟩ ∧
    Complete value
  childObs : s.childObs = []
  valueObs : s.valueObs = []
  profile : Complete (s.tree.lookup (.users uid))
  fresh : Fresh c uid s

/-- The state after the edits of `log`. -/
structure Edited (P : Platform) (c : Client) (uid : UID) (d₀ : Dict) (log : List AEvent)
    (s : AState) : Prop where
  currentUser : (s.app c).currentUser = some uid
  home : (s.app c).home = true
  trapped : (s.app c).trapped = false
  writes : ∀ w ∈ s.writes, ∃ dict, w = ⟨c, .update (.users uid) dict, none⟩
  asks : ∀ x ∈ s.asks, x.1 = c ∧ Asked uid log x.2
  tasks : ∀ t ∈ s.tasks, Answered c uid log t
  childObs : s.childObs = []
  valueObs : s.valueObs = []
  profile : (s.view c).lookup (.users uid) = some (edited P d₀ log)
  fresh : Fresh c uid s
  stored : ∀ data ∈ lastStored uid log, ∃ token,
    s.objects (profileImagesPath uid) = some ⟨token, data⟩
  pictured : ∀ image ∈ lastPicked log, (P.jpegData image).isSome = true →
    PictureWaits s ∨ (lastURL log).isSome = true
  url : ∀ u ∈ lastURL log, u.path = profileImagesPath uid ∧ Uploaded uid log

theorem Opened.edited (h : Opened c uid s) :
    ∃ d₀, s.tree.lookup (.users uid) = some d₀ ∧ Complete (some d₀) ∧ Edited P c uid d₀ [] s := by
  cases hd₀ : s.tree.lookup (.users uid) with
  | none => exact absurd (h.profile .name) (by simp [hd₀, readable, stringAt])
  | some d₀ =>
    have hview : s.view c = s.tree := by
      rw [view_eq, State.queue, h.writes]
      rfl
    refine ⟨d₀, rfl, hd₀ ▸ h.profile, h.currentUser, h.home, h.trapped, fun w hw => ?_,
      fun x hx => ?_, fun t ht => ?_, h.childObs, h.valueObs, hview ▸ hd₀, h.fresh,
      fun data hdata => ?_, fun image himage => ?_, fun u hu => ?_⟩
    · rw [h.writes] at hw
      cases hw
    · obtain ⟨k, rfl⟩ := h.asks x hx
      exact ⟨rfl, .read k⟩
    · obtain ⟨k, value, rfl, hvalue⟩ := h.tasks t ht
      exact .read k value hvalue
    · cases hdata
    · cases himage
    · cases hu

namespace Edited

/-- What `c` issues. -/
theorem issue (h : Edited P c uid d₀ log s) (heffect : Effect P c uid ev log cmds)
    (hsession : (s'.app c).currentUser = some uid ∧ (s'.app c).home = true ∧
      (s'.app c).trapped = false) (htree : s'.tree = s.tree) (hobjects : s'.objects = s.objects)
    (hwrites : s'.writes = s.writes ++ newWrites c cmds)
    (hasks : s'.asks = s.asks ++ newAsks c cmds) (htasks : ∀ t ∈ s'.tasks, t ∈ s.tasks)
    (hchild : s'.childObs = s.childObs) (hvalue : s'.valueObs = s.valueObs)
    (hstored : storedOf uid ev = none) (hnewest : newest c s' = newest c s)
    (hpictured : PictureWaits s → PictureWaits s' ∨ (urlOf ev).isSome = true)
    (hurl : ∀ u ∈ urlOf ev, u.path = profileImagesPath uid ∧ Uploaded uid log) :
    Edited P c uid d₀ (ev :: log) s' where
  currentUser := hsession.1
  home := hsession.2.1
  trapped := hsession.2.2
  writes w hw := by
    rw [hwrites, heffect.writes] at hw
    rcases List.mem_append.1 hw with hw | hw
    · exact h.writes w hw
    · obtain ⟨dict, -, rfl⟩ := List.mem_map.1 hw
      exact ⟨dict, rfl⟩
  asks x hx := by
    rw [hasks] at hx
    rcases List.mem_append.1 hx with hx | hx
    · exact (h.asks x hx).imp_right fun ha => ha.cons ev
    · exact (mem_newAsks.1 hx).imp_right (heffect.asks _)
  tasks t ht := (h.tasks t (htasks t ht)).cons ev
  childObs := hchild.trans h.childObs
  valueObs := hvalue.trans h.valueObs
  profile := by
    rw [view_issue htree hwrites, heffect.writes, edited]
    cases writtenBy P ev with
    | none => exact h.profile
    | some dict =>
      change ((s.view c).update (.users uid) dict).lookup (.users uid) = _
      rw [Tree.lookup_update_self, Tree.merged, h.profile]
      rfl
  fresh := by
    by_cases hread : (writtenBy P ev).isSome = true
    · obtain ⟨k, hk⟩ := heffect.reads hread
      refine .inl ⟨k, ?_⟩
      rw [hasks]
      exact List.mem_append_right _ (mem_newAsks.2 ⟨rfl, hk⟩)
    · rcases h.fresh with ⟨k, hk⟩ | hnew
      · refine .inl ⟨k, ?_⟩
        rw [hasks]
        exact List.mem_append_left _ hk
      · right
        rw [hnewest, hnew, view_issue htree hwrites, heffect.writes,
          Option.not_isSome_iff_eq_none.1 hread]
        rfl
  stored data hdata := by
    rw [lastStored, findSome?_cons_or, hstored] at hdata
    rw [hobjects]
    exact h.stored data hdata
  pictured image himage hdata := by
    rw [lastPicked, findSome?_cons_or] at himage
    rw [lastURL, findSome?_cons_or, Option.isSome_or, Bool.or_eq_true]
    cases hpick : pickOf ev with
    | none =>
      rw [hpick] at himage
      rcases h.pictured image himage hdata with hwaits | hsome
      · exact (hpictured hwaits).imp_right .inl
      · exact .inr (.inr hsome)
    | some image' =>
      rw [hpick] at himage
      cases himage
      obtain ⟨data, hdata⟩ := Option.isSome_iff_exists.1 hdata
      refine .inl (.inl ⟨(c, .putData (profileImagesPath uid) data (.newImageStored uid)), ?_, rfl⟩)
      rw [hasks]
      exact List.mem_append_right _ (mem_newAsks.2 ⟨rfl, heffect.uploads _ data hpick hdata⟩)
  url u hu := by
    rw [lastURL, findSome?_cons_or] at hu
    cases hev : urlOf ev with
    | none =>
      rw [hev] at hu
      exact (h.url u hu).imp_right fun hup => hup.cons ev
    | some u' =>
      rw [hev] at hu
      cases hu
      exact (hurl _ hev).imp_right fun hup => hup.cons ev

theorem tag_read (c : Client) (uid : UID) (k : Response) :
    (profileReads c uid).tag c (.credentialsRead k) = some k := if_pos rfl

/-- An answer that is not a profile of `c` has nothing for the singleton. -/
theorem replied_of_tag (ht : Answered c uid log t)
    (htag : (profileReads c uid).tag t.client t.cb = none) : replied t = none := by
  cases ht with
  | read k value h =>
    rw [tag_read] at htag
    cases htag
  | stored | url => rfl

theorem user_credentialsRead {k : Response} {value : Option Dict} {user : User}
    (h : credentials value = some user) : (credentialsRead k value d).user = user := by
  unfold credentialsRead
  rw [h]
  cases k <;> rfl

/-- Where the answers are run in order, the newest one stays the newest. -/
theorem newest_ran (h : Edited P c uid d₀ log s) {i : ℕ} {e : Env}
    (hl : Edits c uid s (.run i e)) (ht : s.tasks[i]? = some t)
    (hcallback : callback P t.cb t.input (s.app c) = (d', cmds)) :
    ((s.tasks.eraseIdx i).filterMap replied).getLast?.getD (some d'.user) = newest c s := by
  have htrapped := h.trapped
  cases h.tasks t (List.mem_of_getElem? ht) with
  | read k value hvalue =>
    obtain ⟨user, huser⟩ := Option.isSome_iff_exists.1 (credentials_isSome.2 hvalue)
    have hfirst : ∀ t' ∈ s.tasks.take i, replied t' = none := fun t' ht' =>
      replied_of_tag (h.tasks t' (List.mem_of_mem_take ht'))
        (hl.inOrder _ ht (by rw [tag_read]; simp) t' ht')
    have hd' : d'.user = user := by
      simp only [callback, htrapped, Bool.false_eq_true, ↓reduceIte, Prod.mk.injEq] at hcallback
      rw [← hcallback.1, user_credentialsRead huser]
    rw [newest, filterMap_eraseIdx_of_first ht hfirst, hd']
    simp [replied, huser, List.getLast?_cons]
  | stored | url =>
    have hd' : d' = s.app c := by
      simp only [callback, htrapped, Bool.false_eq_true, ↓reduceIte, Prod.mk.injEq] at hcallback
      exact hcallback.1.symm
    rw [newest, filterMap_eraseIdx_of_none ht rfl, hd']

/-- A picture goes on until its URL has arrived. -/
theorem pictured_ran (h : Edited P c uid d₀ log s) {i : ℕ} {e : Env} {app : App}
    (ht : s.tasks[i]? = some t)
    (hcallback : callback P t.cb t.input (s.app c) = (d', cmds)) (hwaits : PictureWaits s) :
    PictureWaits (s.ran i t e app cmds) ∨ (urlOf (.ran t e)).isSome = true := by
  have htrapped := h.trapped
  rcases hwaits with ⟨x, hx, haccount⟩ | ⟨t', ht', haccount⟩
  · exact .inl (.inl ⟨x, List.mem_append_left _ hx, haccount⟩)
  · rcases mem_eraseIdx_or ht ht' with rfl | ht'
    · cases h.tasks t' (List.mem_of_getElem? ht) with
      | read => cases haccount
      | stored =>
        simp only [callback, htrapped, Bool.false_eq_true, ↓reduceIte, Prod.mk.injEq] at hcallback
        obtain ⟨-, rfl⟩ := hcallback
        refine .inl (.inl ⟨(c, .downloadURL (profileImagesPath uid) (.newURLFetched uid)), ?_, rfl⟩)
        exact List.mem_append_right _ (mem_newAsks.2 ⟨rfl, List.mem_cons_self⟩)
      | url => exact .inr rfl
    · exact .inl (.inr ⟨t', ht', haccount⟩)

/-- An answer runs. -/
theorem ran (h : Edited P c uid d₀ log s) {i : ℕ} {e : Env} {app : App}
    (hl : Edits c uid s (.run i e)) (ht : s.tasks[i]? = some t)
    (hrun : (program P).handle t.client e t.cb t.input s.app = (app, cmds)) :
    Edited P c uid d₀ (.ran t e :: log) (s.ran i t e app cmds) := by
  have hanswered := h.tasks t (List.mem_of_getElem? ht)
  have hclient : t.client = c := by cases hanswered <;> rfl
  obtain ⟨⟨d', cmds'⟩, hcallback⟩ : ∃ x, callback P t.cb t.input (s.app c) = x := ⟨_, rfl⟩
  have happ : Function.update s.app c d' = app ∧ cmds' = cmds := by
    simpa [hclient, hcallback] using hrun
  obtain ⟨rfl, rfl⟩ := happ
  obtain ⟨hsession, heffect⟩ := effect_of_callback (e := e) hcallback hanswered h.trapped h.home
    h.currentUser
  have hself : (Function.update s.app c d') c = d' := Function.update_self ..
  refine h.issue heffect ?_ rfl rfl (by rw [← hclient]; rfl) (by rw [← hclient]; rfl)
    (fun t' ht' => List.mem_of_mem_eraseIdx ht') rfl rfl rfl ?_ ?_ ?_
  · rw [State.ran_app, hself]
    exact hsession
  · rw [newest, State.ran_tasks, State.ran_app, hself]
    exact h.newest_ran hl ht hcallback
  · exact h.pictured_ran ht hcallback
  · intro u hu
    cases hanswered with
    | read | stored => cases hu
    | url u' hpath hup =>
      cases hu
      exact ⟨hpath, hup⟩

/-- `c` edits. -/
theorem pressed (h : Edited P c uid d₀ log s) {a : Action} {e : Env} {c' : Client} {app : App}
    (hl : Edits c uid s (.press a e)) (hact : (program P).act a e s.app = some (c', app, cmds)) :
    Edited P c uid d₀ (.pressed a e :: log) (s.pressed a e c' app cmds) := by
  obtain ⟨rfl, hp⟩ := hl.presses
  obtain ⟨⟨d', cmds'⟩, hpress, he⟩ := Option.map_eq_some_iff.1 hact
  cases he
  obtain ⟨rfl, heffect⟩ := effect_of_press (e := e) hpress hp h.currentUser
  have hself : (Function.update s.app a.client (s.app a.client)) a.client = s.app a.client :=
    Function.update_self ..
  refine h.issue heffect ?_ rfl rfl rfl rfl (fun _ => id) rfl rfl rfl ?_ (fun hwaits => ?_)
    fun u hu => ?_
  · rw [State.pressed_app, hself]
    exact ⟨h.currentUser, h.home, h.trapped⟩
  · rw [newest, State.pressed_tasks, State.pressed_app, hself]
    rfl
  · refine .inl (hwaits.imp_left ?_)
    rintro ⟨x, hx, haccount⟩
    exact ⟨x, List.mem_append_left _ hx, haccount⟩
  · cases hu

/-- The server changes no memory. -/
theorem server (h : Edited P c uid d₀ log s) (hwritten : writtenBy P ev = none)
    (hpick : pickOf ev = none) (hurl : urlOf ev = none) (happ : s'.app = s.app)
    (hwrites : ∀ w ∈ s'.writes, w ∈ s.writes) (hasks : ∀ x ∈ s'.asks, x ∈ s.asks)
    (htasks : ∀ t ∈ s'.tasks, Answered c uid (ev :: log) t) (hchild : s'.childObs = s.childObs)
    (hvalue : s'.valueObs = s.valueObs) (hview : s'.view c = s.view c) (hfresh : Fresh c uid s')
    (hstored : ∀ data ∈ lastStored uid (ev :: log), ∃ token,
      s'.objects (profileImagesPath uid) = some ⟨token, data⟩)
    (hwaits : PictureWaits s → PictureWaits s') : Edited P c uid d₀ (ev :: log) s' where
  currentUser := by
    rw [happ]
    exact h.currentUser
  home := by
    rw [happ]
    exact h.home
  trapped := by
    rw [happ]
    exact h.trapped
  writes w hw := h.writes w (hwrites w hw)
  asks x hx := (h.asks x (hasks x hx)).imp_right fun ha => ha.cons ev
  tasks := htasks
  childObs := hchild.trans h.childObs
  valueObs := hvalue.trans h.valueObs
  profile := by
    rw [hview, edited, hwritten]
    exact h.profile
  fresh := hfresh
  stored := hstored
  pictured image himage hdata := by
    rw [lastPicked, findSome?_cons_or, hpick] at himage
    rw [lastURL, findSome?_cons_or, hurl]
    exact (h.pictured image himage hdata).imp_left hwaits
  url u hu := by
    rw [lastURL, findSome?_cons_or, hurl] at hu
    exact (h.url u hu).imp_right fun hup => hup.cons ev

theorem applied (h : Edited P c uid d₀ log s) {i : ℕ} {w : Write Loc Client Cb}
    (hw : s.writes[i]? = some w) (hfirst : s.FirstOfClient i w.client) :
    Edited P c uid d₀ (.resolved w.client w.op true :: log) (s.applied i w) := by
  obtain ⟨dict, rfl⟩ := h.writes w (List.mem_of_getElem? hw)
  have hview := view_applied hw hfirst
  have htasks : (s.applied i ⟨c, .update (.users uid) dict, none⟩).tasks = s.tasks := by
    simp [State.childEvents, State.valueEvents, Write.ack, h.childObs, h.valueObs]
  refine h.server rfl rfl rfl rfl (fun w hw => List.mem_of_mem_eraseIdx hw) (fun _ => id)
    (fun t ht => ?_) rfl rfl hview ?_ h.stored fun hwaits => ?_
  · rw [htasks] at ht
    exact (h.tasks t ht).cons _
  · refine h.fresh.imp id fun hnew => ?_
    rw [hview, ← hnew, newest, htasks]
    rfl
  · refine hwaits.imp id ?_
    rw [htasks]
    exact id

/-- A picture that is stored or whose URL is read stays under way, and a read still waits. -/
theorem fresh_served (h : Edited P c uid d₀ log s) {i : ℕ} {a : Ask Loc Cb Data}
    (ha : s.asks[i]? = some (c, a)) (haccount : a.cb.account.isSome = true) (ht : replied t = none)
    (hanswer : s.answer c a true = [t]) : Fresh c uid (s.served i c a true) := by
  rcases h.fresh with ⟨k, hk⟩ | hnew
  · refine .inl ⟨k, (mem_eraseIdx_or ha hk).resolve_left fun he => ?_⟩
    cases he
    cases haccount
  · right
    change _ = credentials ((s.view c).lookup (.users uid))
    rw [← hnew, newest, State.served_tasks, hanswer, List.filterMap_append,
      List.filterMap_cons_none ht, List.filterMap_nil, List.append_nil]
    rfl

theorem served (h : Edited P c uid d₀ log s) (hd₀ : Complete (some d₀)) {i : ℕ} {c' : Client}
    {a : Ask Loc Cb Data} (ha : s.asks[i]? = some (c', a)) :
    Edited P c uid d₀ (.served c' a true :: log) (s.served i c' a true) := by
  obtain ⟨hc, hasked⟩ := h.asks _ (List.mem_of_getElem? ha)
  obtain rfl : c' = c := hc
  have hasks : ∀ x ∈ (s.served i c' a true).asks, x ∈ s.asks := fun x hx =>
    List.mem_of_mem_eraseIdx hx
  cases hasked with
  | read k =>
    refine h.server rfl rfl rfl rfl (fun _ => id) hasks (fun t ht => ?_) (List.append_nil _)
      (List.append_nil _) rfl (.inr ?_) h.stored fun hwaits => ?_
    · rcases List.mem_append.1 ht with ht | ht
      · exact (h.tasks t ht).cons _
      · cases List.mem_singleton.1 ht
        refine .read k _ ?_
        rw [h.profile]
        exact complete_edited hd₀ log
    · change _ = credentials ((s.view c').lookup (.users uid))
      rw [newest, State.served_tasks, List.filterMap_append]
      simp [State.answer, replied]
    · rcases hwaits with ⟨x, hx, haccount⟩ | ⟨t, ht, haccount⟩
      · refine .inl ⟨x, (mem_eraseIdx_or ha hx).resolve_left fun he => ?_, haccount⟩
        rw [he] at haccount
        cases haccount
      · exact .inr ⟨t, List.mem_append_left _ ht, haccount⟩
  | upload data hpicked =>
    have hlast : lastStored uid
        (.served c' (.putData (profileImagesPath uid) data (.newImageStored uid)) true :: log) =
          some data := by
      rw [lastStored, findSome?_cons_or]
      simp [storedOf]
    refine h.server rfl rfl rfl rfl (fun _ => id) hasks (fun t ht => ?_) (List.append_nil _)
      (List.append_nil _) rfl (h.fresh_served ha rfl rfl rfl) (fun data' hdata => ?_) fun _ => ?_
    · rcases List.mem_append.1 ht with ht | ht
      · exact (h.tasks t ht).cons _
      · cases List.mem_singleton.1 ht
        exact .stored ⟨isSome_cons hpicked _, by rw [hlast]; rfl⟩
    · rw [hlast] at hdata
      cases hdata
      exact ⟨_, if_pos rfl⟩
    · exact .inr ⟨_, List.mem_append_right _ List.mem_cons_self, rfl⟩
  | url hup =>
    obtain ⟨data, hdata⟩ := Option.isSome_iff_exists.1 hup.2
    obtain ⟨token, hobject⟩ := h.stored data hdata
    have hanswer : s.answer c' (.downloadURL (profileImagesPath uid) (.newURLFetched uid)) true =
        [⟨c', .newURLFetched uid, .url (some ⟨profileImagesPath uid, token⟩)⟩] := by
      simp [State.answer, hobject]
    refine h.server rfl rfl rfl rfl (fun _ => id) hasks (fun t ht => ?_) (List.append_nil _)
      (List.append_nil _) rfl (h.fresh_served ha rfl rfl hanswer) h.stored fun _ => ?_
    · rw [State.served_tasks, hanswer] at ht
      rcases List.mem_append.1 ht with ht | ht
      · exact (h.tasks t ht).cons _
      · cases List.mem_singleton.1 ht
        exact .url _ rfl (hup.cons _)
    · refine .inr ⟨⟨c', .newURLFetched uid, .url (some ⟨profileImagesPath uid, token⟩)⟩, ?_, rfl⟩
      refine List.mem_append_right _ ?_
      rw [hanswer]
      exact List.mem_cons_self

theorem step (h : Edited P c uid d₀ log s) (hd₀ : Complete (some d₀)) (hl : Edits c uid s l)
    (hs : Transition (program P) s l s') (hlog : s'.log = ev :: s.log) :
    Edited P c uid d₀ (ev :: log) s' := by
  have hsucceeds := hl.succeeds
  cases hs with
  | press _ hact =>
    obtain rfl := (List.cons.inj hlog).1
    exact h.pressed hl hact
  | run _ ht hrun =>
    obtain rfl := (List.cons.inj hlog).1
    exact h.ran hl ht hrun
  | apply hw hfirst =>
    obtain rfl := (List.cons.inj hlog).1
    exact h.applied hw hfirst
  | reject | die => cases hsucceeds
  | @serve i c' a ok ha =>
    obtain rfl := (List.cons.inj hlog).1
    obtain rfl : ok = true := hsucceeds
    exact h.served hd₀ ha

end Edited

theorem edited_of_reaches (hs : Opened c uid s₀)
    (h : Reaches (step (program P)) (Edits c uid) s₀ s) : ∃ d₀,
      s₀.tree.lookup (.users uid) = some d₀ ∧ Complete (some d₀) ∧
        Edited P c uid d₀ (since s₀ s) s := by
  obtain ⟨d₀, hlookup, hd₀, hedited⟩ := hs.edited (P := P)
  refine ⟨d₀, hlookup, hd₀, ?_⟩
  refine h.invariant_of_reached (I := fun s => Edited P c uid d₀ (since s₀ s) s)
    (by rwa [since_self]) fun {t l u} ht ih hl hstep => ?_
  have hs' := transition_of_step hstep
  obtain ⟨ev, hlog, hsince⟩ := since_step ht hs'
  rw [hsince]
  exact ih.step hd₀ hl hs' hlog

/-! ## What the edits leave -/

/-- A field of the profile. -/
def fieldAt (s : AState) (uid : UID) (f : Field) : Option Any :=
  (s.tree.lookup (.users uid)).bind (· f)

/-- The string is that of a URL that yields the picture. -/
def Resolves (P : Platform) (follows : DownloadURL → Bool) (s : AState) (image : Option Any)
    (data : Data) : Prop :=
  ∃ u, image = some (.string (P.absoluteString u)) ∧ s.resolve follows u = some data

/-- Each field has the value of its last edit or its initial one, and the singleton has them all. -/
structure LastEditsWin (P : Platform) (follows : DownloadURL → Bool) (c : Client) (uid : UID)
    (s₀ s : AState) : Prop where
  fields : ∀ f ≠ .image, fieldAt s uid f = (lastEdit f (since s₀ s)).or (fieldAt s₀ uid f)
  image : ∀ image ∈ lastPicked (since s₀ s), ∃ data, P.jpegData image = some data ∧
    Resolves P follows s (fieldAt s uid .image) data
  unpicked : lastPicked (since s₀ s) = none → fieldAt s uid .image = fieldAt s₀ uid .image
  user : credentials (s.tree.lookup (.users uid)) = some (s.app c).user

/-- The upload of the picture is the last one that was stored, and the URL that arrived last was
drawn for it or leads to what replaces it. -/
def StoredLast (P : Platform) (follows : DownloadURL → Bool) (uid : UID) (s₀ s : AState)
    (image : UIImage) : Prop :=
  ∃ data u, P.jpegData image = some data ∧ lastStored uid (since s₀ s) = some data ∧
    lastURL (since s₀ s) = some u ∧
    ∀ o ∈ s.objects (profileImagesPath uid), o.token = u.token ∨ follows u = true

/-- When nothing is pending, the last edits have won exactly if the upload of the picture chosen last
was the last one, and so was its URL. -/
theorem lastEditsWin_iff (hinj : Function.Injective P.absoluteString) (hs : Opened c uid s₀)
    (h : Reaches (step (program P)) (Edits c uid) s₀ s) (hq : s.Quiescent) :
    LastEditsWin P follows c uid s₀ s ↔
      ∀ image ∈ lastPicked (since s₀ s), StoredLast P follows uid s₀ s image := by
  obtain ⟨d₀, hlookup, hd₀, hedited⟩ := edited_of_reaches hs h
  have hview : s.view c = s.tree := by
    rw [view_eq, State.queue, hq.writes]
    rfl
  have hprofile := hedited.profile
  rw [hview] at hprofile
  have hfield : ∀ f, fieldAt s uid f = edited P d₀ (since s₀ s) f := by
    intro f
    rw [fieldAt, hprofile]
    rfl
  have hfield₀ : ∀ f, fieldAt s₀ uid f = d₀ f := by
    intro f
    rw [fieldAt, hlookup]
    rfl
  have hno : ¬ PictureWaits s := by
    simp [PictureWaits, hq.asks, hq.tasks]
  constructor
  · intro hwin image himage
    obtain ⟨data, hdata, u', hu', hresolve⟩ := hwin.image image himage
    obtain ⟨u, hu⟩ := Option.isSome_iff_exists.1
      ((hedited.pictured image himage (by rw [hdata]; rfl)).resolve_left hno)
    obtain ⟨hpath, hup⟩ := hedited.url u hu
    obtain ⟨data', hdata'⟩ := Option.isSome_iff_exists.1 hup.2
    obtain ⟨token, hobject⟩ := hedited.stored data' hdata'
    rw [hfield, edited_image, hu] at hu'
    obtain rfl : u = u' := hinj (Any.string.inj (Option.some.inj hu'))
    rw [State.resolve, hpath, hobject] at hresolve
    obtain ⟨hcurrent, he⟩ := Option.ite_none_right_eq_some.1 hresolve
    refine ⟨data, u, hdata, hdata'.trans he, hu, fun o ho => ?_⟩
    rw [hobject] at ho
    cases ho
    exact hcurrent
  · intro hstored
    refine ⟨fun f hf => ?_, fun image himage => ?_, fun hnone => ?_, ?_⟩
    · rw [hfield, hfield₀, edited_of_ne hf]
    · obtain ⟨data, u, hdata, hlast, hu, hcurrent⟩ := hstored image himage
      obtain ⟨token, hobject⟩ := hedited.stored data hlast
      refine ⟨data, hdata, u, ?_, ?_⟩
      · rw [hfield, edited_image, hu]
        rfl
      · rw [State.resolve, (hedited.url u hu).1, hobject]
        exact if_pos (hcurrent _ hobject)
    · have hurl : lastURL (since s₀ s) = none := by
        by_contra hsome
        obtain ⟨u, hu⟩ := Option.ne_none_iff_exists'.1 hsome
        have hpicked := (hedited.url u hu).2.1
        rw [hnone] at hpicked
        cases hpicked
      rw [hfield, hfield₀, edited_image, hurl]
      rfl
    · rcases hedited.fresh with ⟨k, hk⟩ | hfresh
      · rw [hq.asks] at hk
        cases hk
      · rw [hview] at hfresh
        rw [← hfresh, newest, hq.tasks]
        rfl

/-! ## Alice edits -/

/-- The letters of a segment are marked, so that no text is two paths. -/
def escape (segment : String) : List Char := segment.toList.flatMap fun ch => ['.', ch]

/-- The path and the token of a URL. -/
def link (path : Path) (token : ℕ) : List Char :=
  path.flatMap (fun segment => '/' :: escape segment) ++ List.replicate token '+'

theorem escape_append_inj {cs cs' : List Char} {xs ys : List Char}
    (hxs : xs.head? ≠ some '.') (hys : ys.head? ≠ some '.')
    (h : cs.flatMap (fun ch => ['.', ch]) ++ xs = cs'.flatMap (fun ch => ['.', ch]) ++ ys) :
    cs = cs' ∧ xs = ys := by
  induction cs generalizing cs' with
  | nil =>
    cases cs' with
    | nil => exact ⟨rfl, h⟩
    | cons ch cs' =>
      obtain rfl : xs = _ := h
      exact absurd rfl hxs
  | cons ch cs ih =>
    cases cs' with
    | nil =>
      obtain rfl : _ = ys := h
      exact absurd rfl hys
    | cons ch' cs' =>
      simp only [List.flatMap_cons, List.cons_append, List.nil_append, List.cons.injEq,
        true_and] at h
      obtain ⟨rfl, h⟩ := h
      obtain ⟨rfl, hrest⟩ := ih h
      exact ⟨rfl, hrest⟩

theorem link_head (path : Path) (token : ℕ) : (link path token).head? ≠ some '.' := by
  cases path with
  | nil => cases token <;> simp [link, List.replicate_succ]
  | cons segment path => simp [link]

theorem link_inj {path path' : Path} {token token' : ℕ} (h : link path token = link path' token') :
    path = path' ∧ token = token' := by
  induction path generalizing path' with
  | nil =>
    cases path' with
    | nil => exact ⟨rfl, by simpa [link] using congrArg List.length h⟩
    | cons segment path' => cases token <;> simp [link, List.replicate_succ] at h
  | cons segment path ih =>
    cases path' with
    | nil => cases token' <;> simp [link, List.replicate_succ] at h
    | cons segment' path' =>
      have h : escape segment ++ link path token = escape segment' ++ link path' token' := by
        simpa [link] using h
      obtain ⟨hsegment, h⟩ := escape_append_inj (link_head _ _) (link_head _ _) h
      obtain ⟨rfl, rfl⟩ := ih h
      exact ⟨by rw [String.toList_inj.1 hsegment], rfl⟩

/-- The URLs of different objects are different. -/
def storage : Platform :=
  { sdk with absoluteString := fun url => String.ofList (link url.path url.token) }

theorem storage_injective : Function.Injective storage.absoluteString := by
  intro u v h
  obtain ⟨hpath, htoken⟩ := link_inj (String.ofList_injective h)
  cases u
  cases v
  cases hpath
  cases htoken
  rfl

/-- `SettingsVC` appears. -/
theorem opened_of_press {a : Action} {e : Env} (hq : s.Quiescent) (hchild : s.childObs = [])
    (hvalue : s.valueObs = []) (hu : (s.app a.client).currentUser = some uid)
    (hprofile : Complete (s.tree.lookup (.users uid))) (ha : a.press = .settingsDidAppear)
    (hstep : step (program P) s (.press a e) = some s') : Opened a.client uid s' := by
  cases transition_of_step hstep with
  | press hkey hact =>
    obtain ⟨⟨d, cmds⟩, hpress, he⟩ := Option.map_eq_some_iff.1 hact
    cases he
    rw [ha] at hpress
    unfold press at hpress
    split at hpress
    · cases hpress
    next htrapped =>
    obtain ⟨hhome, he⟩ := Option.ite_none_right_eq_some.1 hpress
    simp only [setUserSettings, getUserCredentialsFromDatabase, hu] at he
    cases he
    have hself : (Function.update s.app a.client (s.app a.client)) a.client = s.app a.client :=
      Function.update_self ..
    have hask : (a.client, .single (.users uid) (.credentialsRead .setUserSettings)) ∈
        (s.pressed a e a.client (Function.update s.app a.client (s.app a.client))
          [.ask (.single (.users uid) (.credentialsRead .setUserSettings))]).asks :=
      List.mem_append_right _ (mem_newAsks.2 ⟨rfl, List.mem_cons_self⟩)
    refine ⟨?_, ?_, ?_, ?_, fun x hx => ?_, fun t ht => ?_, hchild, hvalue, hprofile,
      .inl ⟨_, hask⟩⟩
    · rw [State.pressed_app, hself, hu]
    · rw [State.pressed_app, hself, hhome]
    · rw [State.pressed_app, hself]
      exact Bool.eq_false_iff.2 htrapped
    · rw [State.pressed_writes, hq.writes]
      rfl
    · rw [State.pressed_asks, hq.asks] at hx
      exact ⟨_, List.mem_singleton.1 hx⟩
    · rw [State.pressed_tasks, hq.tasks] at ht
      cases ht

instance : DecidablePred (InSettings c)
  | .press a _ => inferInstanceAs (Decidable (a.client = c ∧ _))
  | .run .. | .commit .. | .serve .. | .die _ => isTrue trivial

instance (s : AState) : DecidablePred (Edits c uid s) := fun l =>
  decidable_of_iff (InSettings c l ∧ l.succeeds = true ∧ (profileReads c uid).InOrder s l)
    ⟨fun ⟨h₁, h₂, h₃⟩ => ⟨h₁, h₂, h₃⟩, fun ⟨h₁, h₂, h₃⟩ => ⟨h₁, h₂, h₃⟩⟩

/-- Alice is signed in. -/
def signedIn : AState :=
  { known with app := fun _ => { currentUser := some "alice", isLoggedIn := true, home := true } }

theorem appearing_runs : (step (program storage) signedIn
    (.press ⟨0, .settingsDidAppear⟩ ⟨"a", 0⟩)).isSome = true := rfl

def appeared : AState :=
  (step (program storage) signedIn (.press ⟨0, .settingsDidAppear⟩ ⟨"a", 0⟩)).get appearing_runs

theorem opened_appeared : Opened 0 "alice" appeared :=
  opened_of_press (s := signedIn) (a := ⟨0, .settingsDidAppear⟩) ⟨rfl, rfl, rfl⟩ rfl rfl rfl
    (by decide +kernel) rfl (Option.some_get _).symm

def cat : UIImage := ⟨"cat", 1, 1⟩

def dog : UIImage := ⟨"dog", 1, 1⟩

/-- Alice chooses a cat and then a dog, and changes her name and a switch. -/
def choosing : List ALabel := [
  .press ⟨0, .changeNameBtnPressed "Al"⟩ ⟨"b", 1⟩,
  .press ⟨0, .didFinishPickingMediaWithInfo cat⟩ ⟨"c", 2⟩,
  .press ⟨0, .didFinishPickingMediaWithInfo dog⟩ ⟨"d", 3⟩,
  .press ⟨0, .pushNotificationSoundBtnPressed true⟩ ⟨"e", 4⟩, .serve 0 true, .run 0 ⟨"f", 5⟩,
  .serve 0 true, .run 0 ⟨"g", 6⟩]

/-- Both pictures have been stored. -/
def arriving : List ALabel := [
  .run 0 ⟨"h", 7⟩, .run 0 ⟨"i", 8⟩, .serve 1 true, .serve 1 true, .run 0 ⟨"j", 9⟩,
  .run 0 ⟨"k", 10⟩, .serve 0 true, .serve 0 true, .serve 0 true, .run 0 ⟨"l", 11⟩,
  .run 0 ⟨"m", 12⟩, .run 0 ⟨"n", 13⟩, .commit 0 true, .commit 0 true, .commit 0 true,
  .commit 0 true]

theorem inOrder_runs : (exec (step (program storage)) (Edits 0 "alice") appeared
    (choosing ++ [.serve 0 true, .serve 0 true] ++ arriving)).isSome = true := by
  decide +kernel

def inOrder : AState := (exec (step (program storage)) (Edits 0 "alice") appeared
  (choosing ++ [.serve 0 true, .serve 0 true] ++ arriving)).get inOrder_runs

theorem lastEditsWin_inOrder :
    LastEditsWin storage (fun _ => false) 0 "alice" appeared inOrder := by
  have hrun : Reaches (step (program storage)) (Edits 0 "alice") appeared inOrder :=
    .of_exec (Option.some_get _).symm
  refine (lastEditsWin_iff storage_injective opened_appeared hrun ⟨rfl, rfl, rfl⟩).2
    fun image himage => ?_
  have hdog : lastPicked (since appeared inOrder) = some dog := by decide +kernel
  rw [hdog] at himage
  cases himage
  exact ⟨"dog", ⟨profileImagesPath "alice", 2⟩, rfl, by decide +kernel, by decide +kernel,
    by decide +kernel⟩

/-- The upload of the dog is stored before that of the cat. -/
theorem overtaken_runs : (exec (step (program storage)) (Edits 0 "alice") appeared
    (choosing ++ [.serve 1 true, .serve 0 true] ++ arriving)).isSome = true := by
  decide +kernel

def overtaken : AState := (exec (step (program storage)) (Edits 0 "alice") appeared
  (choosing ++ [.serve 1 true, .serve 0 true] ++ arriving)).get overtaken_runs

/-- Alice gets the cat. -/
theorem not_lastEditsWin : ¬ ∀ s₀ s, Opened 0 "alice" s₀ →
    Reaches (step (program storage)) (Edits 0 "alice") s₀ s → s.Quiescent →
      LastEditsWin storage (fun _ => false) 0 "alice" s₀ s := by
  intro h
  have hwin := h appeared overtaken opened_appeared (.of_exec (Option.some_get _).symm)
    ⟨rfl, rfl, rfl⟩
  have hdog : lastPicked (since appeared overtaken) = some dog := by decide +kernel
  obtain ⟨data, hdata, u, hu, hresolve⟩ := hwin.image dog hdog
  have himage : fieldAt overtaken "alice" .image =
      some (.string (storage.absoluteString ⟨profileImagesPath "alice", 2⟩)) := by
    decide +kernel
  rw [himage] at hu
  obtain rfl := storage_injective (Any.string.inj (Option.some.inj hu))
  cases hdata
  revert hresolve
  decide +kernel

end FLChat.Accounts
