import FLChat.Friends.SearchBox
import FLChat.Realtime.Ordered
import FLChat.Sessions.Crossing

/-!
# The search of `AddNewFriendsVC`

Every appearance of the view controller and every change of the text reads all of `users`, and every
reply replaces the array. Where the reads are answered in the order in which they were issued, the
array that is there when none is pending is that of the last text, whatever the others do to `users`
meanwhile: all complete children but the own one whose e-mail contains the text, in the order of the
snapshot (`found_of_reaches`).
-/

namespace FLChat.Sessions

open Realtime
open FLChat.Accounts (UID Dict Device)
open FLChat.Friends (Call UserParams Users RequestDict FriendDict containsText)

variable {P : Platform} {c c' : Client} {app app' : App} {cmds : List Command} {s₀ s s' : SState}
  {l : SLabel} {log : List SEvent} {text : String} {own : Option String}

/-! ## What a search finds -/

/-- Every child of `users` has what the search casts, and a picture with a URL. -/
def Complete (P : Platform) (directory : Option Directory) : Prop :=
  ∀ x ∈ Accounts.allUserSnapshot (directory.getD ∅),
    (Accounts.usersOf x.1 x.2).any (fun user => P.parses user.userImage) = true

instance (directory : Option Directory) : Decidable (Complete P directory) :=
  inferInstanceAs (Decidable (∀ x ∈ Accounts.allUserSnapshot (directory.getD ∅), _))

/-- The users of a snapshot whose e-mail is not the own one and contains the text. -/
def searchResult (own : Option String) (text : String) (directory : Option Directory) :
    List Users :=
  ((Accounts.allUserSnapshot (directory.getD ∅)).filterMap fun x =>
    Accounts.usersOf x.1 x.2).filter
    fun user => containsText user.userEmail text && decide (some user.userEmail ≠ own)

theorem mapM_eq_some_filterMap {α β : Type} {f : α → Option β} {xs : List α}
    (h : ∀ x ∈ xs, (f x).isSome = true) : xs.mapM f = some (xs.filterMap f) := by
  induction xs with
  | nil => rfl
  | cons x xs ih =>
    rw [List.forall_mem_cons] at h
    obtain ⟨y, hy⟩ := Option.isSome_iff_exists.1 h.1
    rw [List.mapM_cons, ih h.2, hy, List.filterMap_cons_some hy]
    rfl

/-- The two branches of the loop filter by the same condition. -/
theorem getUsersFromDatabase_eq {directory : Option Directory} (h : Complete P directory) :
    Accounts.getUsersFromDatabase text own (Accounts.allUserSnapshot (directory.getD ∅)) =
      some (searchResult own text directory) := by
  have hsome : ∀ x ∈ Accounts.allUserSnapshot (directory.getD ∅),
      (Accounts.usersOf x.1 x.2).isSome = true := by
    intro x hx
    have := h x hx
    cases husers : Accounts.usersOf x.1 x.2 with
    | none => rw [husers] at this; cases this
    | some => rfl
  unfold Accounts.getUsersFromDatabase searchResult
  rw [mapM_eq_some_filterMap hsome]
  refine congrArg some (List.filter_congr fun user _ => ?_)
  split
  · next htext => rw [htext, Friends.containsText_empty, Bool.true_and]
  · rfl

theorem userId_of_usersOf {uid : UID} {dict : Dict} {user : Users}
    (h : Accounts.usersOf uid dict = some user) : user.userId = some uid := by
  simp only [Accounts.usersOf, Option.bind_eq_bind, Option.bind_eq_some_iff] at h
  obtain ⟨_, -, _, -, _, -, _, -, _, -, he⟩ := h
  rw [← Option.some.inj he]

/-- A child has one entry. -/
theorem nodup_searchResult (directory : Option Directory) :
    ((searchResult own text directory).map Users.userId).Nodup := by
  refine ((List.filter_sublist.map _).trans (Accounts.map_filterMap_sublist
    (k := fun x : UID × Dict => some x.1) (fun x user hx => userId_of_usersOf hx) _)).nodup ?_
  have hkeys := (Accounts.listed_allUserSnapshot (t := directory.getD ∅)).1
  have := hkeys.map (Option.some_injective UID)
  rwa [List.map_map] at this

/-- The entries are in the order of their children. -/
theorem pairwise_searchResult (directory : Option Directory) :
    (searchResult own text directory).Pairwise fun x y =>
      ∀ u ∈ x.userId, ∀ v ∈ y.userId, Keys.Precedes u v := by
  have h := List.pairwise_map.1 (Accounts.listed_allUserSnapshot (t := directory.getD ∅)).2
  refine (h.filterMap _ fun x y hxy user hx user' hy u hu v hv => ?_).filter _
  have hx := (userId_of_usersOf hx).symm.trans hu
  have hy := (userId_of_usersOf hy).symm.trans hv
  cases hx
  cases hy
  exact hxy

/-- The pictures of what is found load. -/
theorem parses_searchResult {directory : Option Directory} (h : Complete P directory) :
    (searchResult own text directory).all (fun user => P.parses user.userImage) = true := by
  refine List.all_eq_true.2 fun user huser => ?_
  obtain ⟨x, hx, hof⟩ := List.mem_filterMap.1 (List.mem_filter.1 huser).1
  have := h x hx
  rwa [hof] at this

/-- A reply with complete children shows what was searched for. -/
theorem usersRead_of_complete {directory : Option Directory}
    (h : Complete P directory) : usersRead P c text directory app =
      { app with
        found := Function.update app.found c
          (searchResult (ownEmail P app c) text directory) } := by
  unfold usersRead
  rw [getUsersFromDatabase_eq h]
  simp [loadImages, parses_searchResult h]

/-! ## The array of the view controller -/

@[simp] theorem App.setDevice_found (app : App) (c : Client) (d : Device) :
    (app.setDevice c d).found = app.found := rfl

@[simp] theorem App.trap_found (app : App) (c : Client) : (app.trap c).found = app.found := rfl

@[simp] theorem loadImages_found (users : List Users) :
    (loadImages P c users app).found = app.found := by
  unfold loadImages
  split <;> rfl

@[simp] theorem deliver_found (call : Call) (users : Users) :
    (deliver P c call users app).found = app.found := by
  unfold deliver
  simp only
  split <;> simp

theorem userRead_found (call : Call) (user : Option UserParams) :
    (userRead P c call user app).found = app.found := by
  unfold userRead
  split
  · rfl
  · split
    · simp
    · rfl

theorem friendCallback_found {uid : UID} {cb : Friends.Cb} {input : Input Loc}
    (h : friendCallback P c uid cb input app = (app', cmds)) : app'.found = app.found := by
  unfold friendCallback at h
  split at h
  · split at h <;> cases h <;> rfl
  case h_10 | h_11 =>
    cases h
    exact userRead_found ..
  all_goals
    cases h
    rfl

/-- Only a sign-out clears the array. -/
theorem found_of_press {p : Press} {e : Env} (h : press P c' p e app = some (app', cmds))
    (hp : c' = c → p ≠ .account .signOutPressed) : app'.found c = app.found c := by
  cases p with
  | account p =>
    obtain ⟨⟨d, cmds'⟩, -, he⟩ := Option.map_eq_some_iff.1 h
    cases he
    split
    · next hout =>
      have hc : c ≠ c' := fun hc => hp hc.symm (by rw [hout])
      simp [App.dismiss, hc]
    · rfl
  | getUsersFromDatabase query =>
    obtain ⟨-, he⟩ := Option.ite_none_left_eq_some.1 h
    cases he
    rfl
  | newFriendSelected i =>
    obtain ⟨-, he⟩ := Option.ite_none_left_eq_some.1 h
    obtain ⟨users, -, he⟩ := Option.map_eq_some_iff.1 he
    cases he
    unfold select
    split <;> rfl
  | sendFrienRequestBtnPressed | addUsertoFriendsBtnPressed =>
    obtain ⟨-, he⟩ := Option.ite_none_left_eq_some.1 h
    obtain ⟨users, -, he⟩ := Option.map_eq_some_iff.1 he
    rcases withPeer_eq he with ⟨rfl, -⟩ | ⟨rfl, -⟩ <;> rfl
  | search list query =>
    obtain ⟨-, he⟩ := Option.ite_none_left_eq_some.1 h
    have he := Option.some.inj he
    unfold searchList at he
    split at he
    · split at he <;> cases he <;> rfl
    · cases he
      rfl
  | didSelectItemAt list i =>
    obtain ⟨-, he⟩ := Option.ite_none_left_eq_some.1 h
    obtain ⟨users, -, he⟩ := Option.map_eq_some_iff.1 he
    cases he
    unfold select
    split
    · split <;> rfl
    · rfl

/-- The text that a callback was asked to search for. -/
def Cb.query : Cb → Option String
  | .usersRead query => some query
  | _ => none

/-- Only the reply of a search changes the array. -/
theorem found_of_callback {cb : Cb} {input : Input Loc}
    (h : callback P c' cb input app = (app', cmds)) (hcb : c' = c → cb.query = none) :
    app'.found c = app.found c := by
  unfold callback at h
  split at h
  · cases h
    rfl
  split at h
  · cases h
    rfl
  · cases h
    rfl
  · cases h
    rfl
  · next query directory =>
    have hc : c ≠ c' := fun hc => by cases hcb hc.symm
    cases h
    unfold usersRead
    split
    · rfl
    · simp [hc]
  · rw [friendCallback_found h]
  · cases h
    rfl

/-! ## The searches of a device -/

/-- The reads of all of `users` by `c`. -/
def searches (c : Client) : Channel Loc Client Cb String := ⟨c, .users, Cb.query⟩

/-- The text with which an event makes `c` search. -/
def textOf (c : Client) : SEvent → Option String
  | .pressed ⟨c', .getUsersFromDatabase query⟩ _ => if c' = c then some query else none
  | _ => none

def finalText (c : Client) (log : List SEvent) : Option String := log.findSome? (textOf c)

/-- The text and the snapshot of a reply that `c` runs. -/
def replyOf (c : Client) : SEvent → Option (String × Option Directory)
  | .ran ⟨c', .usersRead query, .value .users directory⟩ _ =>
    if c' = c then some (query, directory) else none
  | _ => none

def lastReply (c : Client) (log : List SEvent) : Option (String × Option Directory) :=
  log.findSome? (replyOf c)

theorem query_of_awaited {Q : Accounts.Cb → Prop} {cb : Cb} (h : Awaited Q cb) : cb.query = none := by
  cases h <;> rfl

theorem reads_nil (h : ∀ cmd ∈ cmds, ∀ cb ∈ cmd.completion, cb.query = none) :
    (searches c).Reads c' cmds [] := by
  have none_of : ∀ cb : Cb, cb.query = none → (searches c).tag c' cb = none := by
    intro cb hcb
    unfold Channel.tag
    split
    · exact hcb
    · rfl
  constructor
  · intro cmd hcmd cb hcb htag
    exact absurd (none_of cb (h cmd hcmd cb hcb)) htag
  · refine List.filterMap_eq_nil_iff.2 fun x hx => ?_
    obtain ⟨hc, hcmd⟩ := mem_newAsks.1 hx
    rw [hc]
    exact none_of _ (h _ hcmd _ rfl)

theorem query_of_press {p : Press} {e : Env} (h : press P c p e app = some (app', cmds))
    (hp : ∀ query, p ≠ .getUsersFromDatabase query) :
    ∀ cmd ∈ cmds, ∀ cb ∈ cmd.completion, cb.query = none := fun cmd hcmd cb hcb =>
  query_of_awaited (awaited_of_press (Q := fun _ => True) (by simp) h hp cmd hcmd cb hcb)

theorem query_of_callback {cb : Cb} {input : Input Loc}
    (h : callback P c cb input app = (app', cmds)) :
    ∀ cmd ∈ cmds, ∀ cb ∈ cmd.completion, cb.query = none := fun cmd hcmd cb hcb =>
  query_of_awaited (awaited_of_callback (Q := fun _ => True) (by simp) h cmd hcmd cb hcb)

/-- A search is issued by its press and by nothing else. -/
theorem searches_serves (P : Platform) (c : Client) :
    (searches c).Serves (program P) fun ev => (textOf c ev).toList where
  press := by
    intro a e app c' app' cmds hact
    obtain ⟨⟨app'', cmds'⟩, hpress, he⟩ := Option.map_eq_some_iff.1 hact
    cases he
    obtain ⟨c', p⟩ := a
    cases p with
    | getUsersFromDatabase query =>
      obtain ⟨-, he⟩ := Option.ite_none_left_eq_some.1 hpress
      cases he
      constructor
      · intro cmd hcmd cb hcb _
        cases List.mem_singleton.1 hcmd
        cases hcb
        rfl
      · by_cases hc : c' = c <;>
          simp [newAsks, Channel.tag, searches, Ask.cb, Cb.query, textOf, hc]
    | account | newFriendSelected | sendFrienRequestBtnPressed | search | didSelectItemAt
    | addUsertoFriendsBtnPressed =>
      exact reads_nil (query_of_press hpress (by simp))
  run := by
    intro t e app app' cmds hrun
    exact reads_nil (query_of_callback hrun)
  resolved _ _ _ := rfl
  served _ _ _ := rfl
  died _ := rfl

/-! ## Runs -/

/-- The session of `c` goes on. -/
def StaysSignedIn (c : Client) : SLabel → Prop
  | .press a _ => a.client = c → a.press.signsIn = none ∧ a.press ≠ .account .signOutPressed
  | .run .. | .commit .. | .serve .. | .die _ => True

/-- A search of `c` finds complete children. -/
def FindsComplete (P : Platform) (c : Client) (s : SState) : SLabel → Prop
  | .serve i _ => ∀ x ∈ s.asks[i]?, (searches c).tag x.1 x.2.cb ≠ none →
    Complete P ((s.view c).lookup .users)
  | .press .. | .run .. | .commit .. | .die _ => True

/-- The step runs a reply to a search of `c`. -/
def RunsSearch (c : Client) (s : SState) : SLabel → Prop
  | .run i _ => ∃ t ∈ s.tasks[i]?, (searches c).tag t.client t.cb ≠ none
  | .press .. | .serve .. | .commit .. | .die _ => False

/-- The steps of a run in which the searches of `c` are answered in order and find complete
children, and nothing else that `c` does ends its session or its process. -/
structure Searches (P : Platform) (c : Client) (s : SState) (l : SLabel) : Prop where
  inOrder : (searches c).InOrder s l
  session : StaysSignedIn c l
  complete : FindsComplete P c s l
  runsOn : RunsSearch c s l ∨ ∀ s' ∈ step (program P) s l, (s'.app.device c).trapped = false

deriving instance DecidableEq for Press

instance : DecidablePred (StaysSignedIn c)
  | .press a _ => inferInstanceAs (Decidable (a.client = c → _ ∧ _))
  | .run .. | .commit .. | .serve .. | .die _ => isTrue trivial

instance (s : SState) : DecidablePred (FindsComplete P c s)
  | .serve i _ => inferInstanceAs (Decidable (∀ x ∈ s.asks[i]?, _))
  | .press .. | .run .. | .commit .. | .die _ => isTrue trivial

instance (s : SState) : DecidablePred (RunsSearch c s)
  | .run i _ => inferInstanceAs (Decidable (∃ t ∈ s.tasks[i]?, _))
  | .press .. | .serve .. | .commit .. | .die _ => isFalse id

instance (s : SState) : DecidablePred (Searches P c s) := fun l =>
  decidable_of_iff ((searches c).InOrder s l ∧ StaysSignedIn c l ∧ FindsComplete P c s l ∧
    (RunsSearch c s l ∨ ∀ s' ∈ step (program P) s l, (s'.app.device c).trapped = false))
    ⟨fun ⟨h₁, h₂, h₃, h₄⟩ => ⟨h₁, h₂, h₃, h₄⟩, fun ⟨h₁, h₂, h₃, h₄⟩ => ⟨h₁, h₂, h₃, h₄⟩⟩

/-- The process of `c` runs, and no search of it is pending. -/
structure Idle (c : Client) (s : SState) : Prop where
  trapped : (s.app.device c).trapped = false
  reserved : (searches c).Reserved s
  replies : (searches c).replies s = []
  waiting : (searches c).waiting s = []

/-- What `c` shows after the events of `log`. -/
structure Searched (P : Platform) (c : Client) (user : Option UID) (log : List SEvent) (s : SState) :
    Prop where
  trapped : (s.app.device c).trapped = false
  currentUser : s.app.currentUser c = user
  complete : ∀ query directory, ⟨c, .usersRead query, .value .users directory⟩ ∈ s.tasks →
    Complete P directory
  replied : (lastReply c log).map Prod.fst = log.findSome? (searches c).receives
  found : ∀ query directory, lastReply c log = some (query, directory) →
    s.app.found c = searchResult (user.map P.email) query directory

theorem currentUser_of_press {p : Press} {e : Env} (h : press P c' p e app = some (app', cmds))
    (hp : c' = c → p.signsIn = none ∧ p ≠ .account .signOutPressed) :
    app'.currentUser c = app.currentUser c := by
  cases pressed_of_press h with
  | kept hext => exact hext.currentUser_eq c
  | signedIn hsigns =>
    have hc : c ≠ c' := fun hc => by
      have := (hp hc.symm).1
      rw [Press.signsIn, hsigns] at this
      cases this
    rw [App.currentUser, App.setDevice_ne hc]
    rfl
  | signedOut =>
    have hc : c ≠ c' := fun hc => (hp hc.symm).2 rfl
    rw [App.currentUser, App.dismiss_device, App.setDevice_ne hc]
    rfl

theorem currentUser_of_callback {cb : Cb} {input : Input Loc}
    (h : callback P c' cb input app = (app', cmds)) : app'.currentUser c = app.currentUser c := by
  cases called_of_callback h with
  | kept hext => exact hext.currentUser_eq c
  | loaded _ _ hu =>
    by_cases hc : c = c'
    · subst hc
      rw [App.currentUser, App.setDevice_self, hu]
    · rw [App.currentUser, App.setDevice_ne hc]
      rfl

theorem tag_usersRead (c : Client) (query : String) :
    (searches c).tag c (.usersRead query) = some query := if_pos rfl

theorem replyOf_of_tag {t : Task Loc Client Cb} {e : Env}
    (htag : (searches c).tag t.client t.cb = none) : replyOf c (.ran t e) = none := by
  unfold replyOf
  split
  · next he =>
    cases he
    split
    · next hc =>
      subst hc
      rw [tag_usersRead] at htag
      cases htag
    · rfl
  · rfl

theorem lastReply_cons (ev : SEvent) (log : List SEvent) :
    lastReply c (ev :: log) = (replyOf c ev).or (lastReply c log) :=
  findSome?_cons_or _ ev log

/-- A reply to a search of `c` that is due. -/
theorem reply_of_tag {t : Task Loc Client Cb} (hres : (searches c).Reserved s) (ht : t ∈ s.tasks)
    (htag : (searches c).tag t.client t.cb ≠ none) :
    ∃ query directory, t = ⟨c, .usersRead query, .value .users directory⟩ := by
  obtain ⟨directory, hinput⟩ := hres.tasks t ht htag
  obtain ⟨c', cb, input⟩ := t
  unfold Channel.tag at htag
  split at htag
  · next hc =>
    obtain rfl : c' = c := hc
    obtain rfl : input = .value .users directory := hinput
    cases cb with
    | usersRead query => exact ⟨query, directory, rfl⟩
    | account | profileRead | friend => exact absurd rfl htag
  · exact absurd rfl htag

namespace Searched

variable {user : Option UID}

theorem keep (h : Searched P c user log s) {ev : SEvent} (hev : replyOf c ev = none)
    (hrec : (searches c).receives ev = none) (htrapped : (s'.app.device c).trapped = false)
    (huser : s'.app.currentUser c = s.app.currentUser c)
    (htasks : ∀ query directory, ⟨c, .usersRead query, .value .users directory⟩ ∈ s'.tasks →
      ⟨c, .usersRead query, .value .users directory⟩ ∈ s.tasks ∨ Complete P directory)
    (hfound : s'.app.found c = s.app.found c) : Searched P c user (ev :: log) s' where
  trapped := htrapped
  currentUser := huser.trans h.currentUser
  complete query directory ht := (htasks query directory ht).elim (h.complete query directory) id
  replied := by
    rw [lastReply_cons, hev, Option.none_or, h.replied, List.findSome?_cons, hrec]
  found query directory hlast := by
    rw [lastReply_cons, hev, Option.none_or] at hlast
    rw [hfound, h.found query directory hlast]

/-- A reply to a search replaces the array by what the search finds. -/
theorem reply (h : Searched P c user log s) {query : String} {directory : Option Directory} {e : Env}
    {i : ℕ} {app : App} {cmds : List Command}
    (ht : s.tasks[i]? = some ⟨c, .usersRead query, .value .users directory⟩)
    (hrun : callback P c (.usersRead query) (.value .users directory) s.app = (app, cmds)) :
    Searched P c user (.ran ⟨c, .usersRead query, .value .users directory⟩ e :: log)
      (s.ran i ⟨c, .usersRead query, .value .users directory⟩ e app cmds) := by
  have hcomplete := h.complete query directory (List.mem_of_getElem? ht)
  have happ : usersRead P c query directory s.app = app := by
    have := congrArg Prod.fst hrun
    simpa [callback, h.trapped] using this
  rw [usersRead_of_complete hcomplete] at happ
  have hown : ownEmail P s.app c = user.map P.email := by rw [ownEmail, h.currentUser]
  subst happ
  refine ⟨h.trapped, h.currentUser, fun q d ht' => ?_, ?_, fun q d hlast => ?_⟩
  · exact h.complete q d (List.mem_of_mem_eraseIdx ht')
  · rw [lastReply_cons, List.findSome?_cons]
    simp [replyOf, Channel.receives, Channel.tag, searches, Cb.query]
  · rw [lastReply_cons] at hlast
    simp only [replyOf, ↓reduceIte, Option.some_or, Option.some.injEq, Prod.mk.injEq] at hlast
    obtain ⟨rfl, rfl⟩ := hlast
    simp [hown]

theorem step (h : Searched P c user log s) (hres : (searches c).Reserved s) {ev : SEvent}
    (hl : Searches P c s l) (hs : Transition (program P) s l s') (hlog : s'.log = ev :: s.log) :
    Searched P c user (ev :: log) s' := by
  have hruns := hl.runsOn.imp_right fun h => h s' (step_of_transition hs)
  cases hs with
  | @press a e c' app cmds _ hact =>
    obtain rfl := (List.cons.inj hlog).1
    obtain ⟨⟨app', cmds'⟩, hpress, he⟩ := Option.map_eq_some_iff.1 hact
    cases he
    exact h.keep rfl rfl (hruns.resolve_left id) (currentUser_of_press hpress hl.session)
      (fun _ _ ht => .inl ht) (found_of_press hpress fun hc => (hl.session hc).2)
  | @run i e t app cmds _ ht hrun =>
    obtain rfl := (List.cons.inj hlog).1
    have hmem := List.mem_of_getElem? ht
    by_cases htag : (searches c).tag t.client t.cb = none
    · refine h.keep (replyOf_of_tag htag) htag (hruns.resolve_left ?_)
        (currentUser_of_callback hrun) (fun _ _ ht' => .inl (List.mem_of_mem_eraseIdx ht'))
        (found_of_callback hrun fun hc => ?_)
      · rintro ⟨t', ht', htag'⟩
        obtain rfl := Option.some.inj (ht.symm.trans ht')
        exact htag' htag
      · exact (if_pos (show t.client = (searches c).client from hc)).symm.trans htag
    · obtain ⟨query, directory, rfl⟩ := reply_of_tag hres hmem htag
      exact h.reply ht hrun
  | @apply i w hw _ =>
    obtain rfl := (List.cons.inj hlog).1
    refine h.keep rfl rfl h.trapped rfl (fun query directory ht => ?_) rfl
    refine .inl ((List.mem_append.1 ht).resolve_right fun ht => ?_)
    have htag := hres.tag_applied (List.mem_of_getElem? hw) ht
    rw [tag_usersRead] at htag
    cases htag
  | @reject i w hw _ =>
    obtain rfl := (List.cons.inj hlog).1
    refine h.keep rfl rfl h.trapped rfl (fun query directory ht => ?_) rfl
    refine .inl ((List.mem_append.1 ht).resolve_right fun ht => ?_)
    have htag := hres.tag_ack (List.mem_of_getElem? hw) ht
    rw [tag_usersRead] at htag
    cases htag
  | @serve i c' a ok ha =>
    obtain rfl := (List.cons.inj hlog).1
    refine h.keep rfl rfl h.trapped rfl (fun query directory ht => ?_) rfl
    refine (List.mem_append.1 ht).imp_right fun ht => ?_
    -- the reply carries what the device sees now
    obtain ⟨hc, hcb⟩ := mem_answer ht
    have htag : (searches c).tag c' a.cb ≠ none := by
      rw [← hc, ← hcb, tag_usersRead]
      exact Option.some_ne_none _
    have hcomplete := hl.complete _ ha htag
    obtain ⟨cb', rfl⟩ : ∃ cb', a = .single .users cb' :=
      ⟨_, hres.asks _ (List.mem_of_getElem? ha) htag⟩
    have hinput := congrArg Task.input (List.mem_singleton.1 ht)
    obtain rfl : directory = (s.view c').lookup .users := by injection hinput
    rwa [← show c = c' from hc]
  | @die c' =>
    obtain rfl := (List.cons.inj hlog).1
    have hc : c ≠ c' := fun hc => hl.inOrder hc.symm
    have hdevice : (die c' s.app).device c = s.app.device c := App.setDevice_ne hc
    refine h.keep rfl rfl ?_ ?_ (fun _ _ ht => .inl (List.mem_filter.1 ht).1) ?_
    · rw [State.died_app, program_die, hdevice, h.trapped]
    · rw [State.died_app, program_die, App.currentUser, hdevice]
      rfl
    · exact Function.update_of_ne hc ..

end Searched

/-- The last text is that of the last reply, when no search is pending. -/
theorem finalText_eq (hseq : (searches c).Sequence (fun ev => (textOf c ev).toList) log s)
    (hreplies : (searches c).replies s = []) (hwaiting : (searches c).waiting s = []) :
    finalText c log = log.findSome? (searches c).receives := by
  have hsent : Channel.sent (fun ev => (textOf c ev).toList) log =
      log.reverse.filterMap (textOf c) := by
    unfold Channel.sent
    induction log.reverse with
    | nil => rfl
    | cons ev log ih =>
      rw [List.flatMap_cons, ih]
      cases h : textOf c ev <;> simp [h]
  rw [Channel.Sequence, hsent, hreplies, hwaiting, List.append_nil, List.append_nil,
    Channel.received] at hseq
  have hlast := congrArg List.getLast? hseq
  simpa [finalText] using hlast

/-- When no search of `c` is pending, the array of `c` is what the snapshot that answered the last
search has for the last text, once each and in the order of the children. -/
theorem found_of_reaches (hs : Idle c s₀) (h : Reaches (step (program P)) (Searches P c) s₀ s)
    (hreplies : (searches c).replies s = []) (hwaiting : (searches c).waiting s = [])
    (htext : finalText c (since s₀ s) = some text) :
    ∃ directory, lastReply c (since s₀ s) = some (text, directory) ∧
      s.app.found c = searchResult (ownEmail P s₀.app c) text directory ∧
      ((s.app.found c).map Users.userId).Nodup ∧
      (s.app.found c).Pairwise fun x y => ∀ u ∈ x.userId, ∀ v ∈ y.userId, Keys.Precedes u v := by
  have hsent := Channel.sent_of_reaches (searches_serves P c) hs.reserved hs.replies hs.waiting
    (fun _ _ hl => hl.inOrder) h
  have hinit : Searched P c (s₀.app.currentUser c) (since s₀ s₀) s₀ := by
    rw [since_self]
    refine ⟨hs.trapped, rfl, fun query directory ht => ?_, rfl, fun _ _ hlast => ?_⟩
    · have hnil := List.filterMap_eq_nil_iff.1 hs.replies _ ht
      exact absurd ((tag_usersRead c query).symm.trans hnil) (by simp)
    · cases hlast
  have hsearched : Searched P c (s₀.app.currentUser c) (since s₀ s) s := by
    refine h.invariant_of_reached
      (I := fun s => Searched P c (s₀.app.currentUser c) (since s₀ s) s) hinit
      fun {t l u} ht ih hl hstep => ?_
    have hs' := transition_of_step hstep
    obtain ⟨ev, hlog, hsince⟩ := since_step ht hs'
    have hres := (Channel.sent_of_reaches (searches_serves P c) hs.reserved hs.replies hs.waiting
      (fun _ _ hl => hl.inOrder) ht).1
    rw [hsince]
    exact ih.step hres hl hs' hlog
  have hreplied := hsearched.replied
  rw [← finalText_eq hsent.2 hreplies hwaiting, htext] at hreplied
  obtain ⟨⟨query, directory⟩, hlast, rfl⟩ := Option.map_eq_some_iff.1 hreplied
  have hfound := hsearched.found query directory hlast
  refine ⟨directory, hlast, hfound, ?_⟩
  rw [hfound]
  exact ⟨nodup_searchResult directory, pairwise_searchResult directory⟩

/-! ## Bob types -/

theorem registering_runs : (exec (step (program sdk)) (fun _ _ => True) start
    registering).isSome = true := by
  decide +kernel

def registered : SState :=
  (exec (step (program sdk)) (fun _ _ => True) start registering).get registering_runs

/-- Bob appears and types, and Alice changes her name between the answers. -/
def typing : List SLabel := [
  .press ⟨1, .getUsersFromDatabase ""⟩ ⟨"11", 11⟩,
  .press ⟨1, .getUsersFromDatabase "alice"⟩ ⟨"12", 12⟩, .serve 0 true,
  .press ⟨0, .account (.changeNameBtnPressed "Alice")⟩ ⟨"13", 13⟩, .commit 0 true, .serve 0 true,
  .run 0 ⟨"14", 14⟩, .run 0 ⟨"15", 15⟩]

theorem typing_runs : (exec (step (program sdk)) (Searches sdk 1) registered typing).isSome = true :=
  by decide +kernel

def typed : SState := (exec (step (program sdk)) (Searches sdk 1) registered typing).get typing_runs

theorem idle_registered : Idle 1 registered where
  trapped := rfl
  reserved := by
    constructor <;> intro x hx <;> cases hx
  replies := rfl
  waiting := rfl

theorem found_typed : ∃ directory, lastReply 1 (since registered typed) = some ("alice", directory) ∧
    typed.app.found 1 = searchResult (ownEmail sdk registered.app 1) "alice" directory ∧
    ((typed.app.found 1).map Users.userId).Nodup ∧
    (typed.app.found 1).Pairwise fun x y =>
      ∀ u ∈ x.userId, ∀ v ∈ y.userId, Keys.Precedes u v :=
  found_of_reaches idle_registered (.of_exec (Option.some_get _).symm) (by decide +kernel)
    (by decide +kernel) (by decide +kernel)

end FLChat.Sessions
