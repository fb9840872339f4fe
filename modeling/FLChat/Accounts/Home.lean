import FLChat.Accounts.Issued
import FLChat.Realtime.Pending

/-!
# The profile that Home loads

`HomeVC` and `SettingsVC` read the profile of whoever is signed in, and unwrap all of it. A sign-in
with Facebook and a sign-up write the profile before they go to `HomeVC`; the other two sign-ins and
a launch with the flag set rely on one that is there. When each of those finds one, every read finds
one (`profilesUsable_of_reaches`); the first sign-in with Google never does
(`not_profilesUsable`).
-/

namespace FLChat.Accounts

open Realtime
open FLChat.Messages (Data)

variable {P : Platform} {s₀ s s' : AState} {l : ALabel} {c : Client} {uid : UID} {d d' : Device}
  {cmds : List Command} {p : Press} {cb : Cb} {input : Input Loc}

/-! ## Who may be without a profile -/

/-- The callback may open `HomeVC` or read the profile of whoever is signed in by then, before there
is a profile of `uid`. A registration of `uid` does neither. -/
def Cb.disturbs (uid : UID) : Cb → Bool
  | .credentialsRead completeResponce => decide (completeResponce = .goToHome)
  | .imageStored uid' _ | .urlFetched uid' _ => decide (uid' ≠ uid)
  | .newImageStored _ | .newURLFetched _ => true

/-- `HomeVC` is not presented, and nothing under way presents it or reads the profile until `uid`
is registered. -/
structure Quiet (uid : UID) (home : Bool) (pending : List Cb) : Prop where
  home : home = false
  pending : ∀ cb ∈ pending, cb.disturbs uid = false

instance (uid : UID) (home : Bool) (pending : List Cb) : Decidable (Quiet uid home pending) :=
  decidable_of_iff (home = false ∧ ∀ cb ∈ pending, cb.disturbs uid = false)
    ⟨fun h => ⟨h.1, h.2⟩, fun h => ⟨h.home, h.pending⟩⟩

/-- Whoever is signed in has a profile, or nothing asks for it. -/
def Covered (profile : UID → Prop) (d : Device) (pending : List Cb) : Prop :=
  ∀ uid, d.currentUser = some uid → profile uid ∨ Quiet uid d.home pending

theorem Covered.mono {profile profile' : UID → Prop} {pending pending' : List Cb}
    (h : Covered profile d pending) (hprofile : ∀ uid, profile uid → profile' uid)
    (hpending : ∀ cb ∈ pending', cb ∈ pending) : Covered profile' d pending' := fun uid hu =>
  (h uid hu).imp (hprofile uid) fun hq => ⟨hq.home, fun cb hcb => hq.pending cb (hpending cb hcb)⟩

/-- Where `HomeVC` is presented or about to be, whoever is signed in has a profile. -/
theorem Covered.profile {profile : UID → Prop} {pending : List Cb}
    (h : Covered profile d pending) (hu : d.currentUser = some uid)
    (hdisturbed : d.home = true ∨ ∃ cb ∈ pending, cb.disturbs uid = true) : profile uid := by
  rcases h uid hu with hprofile | hq
  · exact hprofile
  · rcases hdisturbed with hhome | ⟨cb, hcb, hdisturbs⟩
    · rw [hq.home] at hhome
      cases hhome
    · rw [hq.pending cb hcb] at hdisturbs
      cases hdisturbs

/-- A sign-in that does not register finds a profile, and so does a launch with the flag set. One
that registers an account without a profile is not disturbed. -/
def PressReady (profile : UID → Prop) (d : Device) (pending : List Cb) : Press → Prop
  | .loginBtnPressed uid | .didSignInFor uid => profile uid
  | .registrateUserAndLogIn uid | .facebookAuth uid => profile uid ∨ Quiet uid d.home pending
  | .loginDidAppear => d.isLoggedIn = true → ∀ uid ∈ d.currentUser, profile uid
  | _ => True

theorem disturbs_registrationUserIntoDB {email : String} :
    ∀ cb ∈ (registrationUserIntoDB P uid email).filterMap Cmd.completion,
      cb.disturbs uid = false := by
  intro cb hcb
  unfold registrationUserIntoDB at hcb
  split at hcb
  · cases hcb
  · cases List.mem_singleton.1 hcb
    exact decide_eq_false fun h => h rfl

theorem Covered.pressed {profile : UID → Prop} {pending : List Cb}
    (h : Covered profile d pending) (hready : PressReady profile d pending p)
    (hp : Pressed P d p d' cmds) :
    Covered profile d' (pending ++ cmds.filterMap Cmd.completion) ∧
      ∀ uid k, .ask (.single (.users uid) (.credentialsRead k)) ∈ cmds → profile uid := by
  have hissues := hp.issues
  -- a press on whose device everybody has a profile reads one that is there
  have all : (∀ uid, d'.currentUser = some uid → profile uid) →
      Covered profile d' (pending ++ cmds.filterMap Cmd.completion) ∧
        ∀ uid k, .ask (.single (.users uid) (.credentialsRead k)) ∈ cmds → profile uid := by
    intro hall
    refine ⟨fun uid hu => .inl (hall uid hu), fun uid k hk => ?_⟩
    cases hissues _ hk with
    | read hu => exact hall uid hu
  cases hp with
  | @logIn p uid hp =>
    refine all fun uid' hu => ?_
    cases hu
    rcases hp with rfl | rfl <;> exact hready
  | @register p uid hp =>
    have hready : profile uid ∨ Quiet uid d.home pending := by
      rcases hp with rfl | rfl <;> exact hready
    constructor
    · intro uid' hu
      cases hu
      refine hready.imp_right fun hq => ⟨hq.home, fun cb hcb => ?_⟩
      rcases List.mem_append.1 hcb with hcb | hcb
      · exact hq.pending cb hcb
      · exact disturbs_registrationUserIntoDB cb hcb
    · intro uid' k hk
      unfold registrationUserIntoDB at hk
      split at hk
      · cases hk
      · cases List.mem_singleton.1 hk
  | signOut => exact all fun uid hu => by cases hu
  | launch hhome =>
    by_cases hflag : d.isLoggedIn = true
    · refine all fun uid hu => hready hflag uid ?_
      rw [loginDidAppear, if_pos hflag] at hu
      exact hu
    · rw [loginDidAppear, if_neg hflag]
      exact ⟨h.mono (fun _ => id) fun cb hcb => by simpa using hcb, fun _ _ hk => by cases hk⟩
  | load hp hhome => exact all fun uid hu => h.profile hu (.inl hhome)
  | change hp hhome hdict =>
    rw [changeUser_currentUser] at all
    exact all fun uid hu => h.profile hu (.inl hhome)
  | pick hhome =>
    rw [uploadNewUserImageIntoDB_currentUser] at all
    exact all fun uid hu => h.profile hu (.inl hhome)

theorem Covered.called {profile profile' : UID → Prop} {pending : List Cb}
    (h : Covered profile d pending) (hcb : cb ∈ pending) (hc : Called P d cb input d' cmds)
    (hkeep : ∀ uid, profile uid → profile' uid)
    (hwrite : ∀ uid dict, updateUserIntoDatabaseWithUID uid dict ∈ cmds → Complete (some dict) →
      profile' uid) :
    Covered profile' d' (pending ++ cmds.filterMap Cmd.completion) ∧
      ∀ uid k, .ask (.single (.users uid) (.credentialsRead k)) ∈ cmds → profile' uid := by
  cases hc with
  | ignored =>
    exact ⟨h.mono hkeep fun cb hcb => by simpa using hcb, fun _ _ hk => by cases hk⟩
  | @credentialsRead k uid value =>
    refine ⟨?_, fun _ _ hk => by cases hk⟩
    have hsame : Covered profile' d (pending ++ ([] : List Command).filterMap Cmd.completion) :=
      h.mono hkeep fun cb hcb => by simpa using hcb
    unfold FLChat.Accounts.credentialsRead
    split
    · exact hsame
    · cases k with
      | printed | setUserSettings => exact hsame
      | goToHome =>
        exact fun uid hu => .inl (hkeep uid (h.profile hu (.inr ⟨_, hcb, rfl⟩)))
  | @imageStored uid email ok =>
    refine ⟨fun uid' hu => (h uid' hu).imp (hkeep uid') fun hq => ⟨hq.home, fun cb' hcb' => ?_⟩,
      fun _ _ hk => by cases List.mem_singleton.1 hk⟩
    rcases List.mem_append.1 hcb' with hcb' | hcb'
    · exact hq.pending cb' hcb'
    · cases List.mem_singleton.1 hcb'
      exact hq.pending (.imageStored uid email) hcb
  | @urlFetched uid email url =>
    refine ⟨fun uid' hu => .inl ?_, fun _ _ hk => by cases List.mem_singleton.1 hk⟩
    rcases h uid' hu with hprofile | hq
    · exact hkeep uid' hprofile
    · -- the registration of `uid'` itself has written its profile
      have hquiet := hq.pending _ hcb
      obtain rfl : uid = uid' := by simpa [Cb.disturbs] using hquiet
      exact hwrite _ _ List.mem_cons_self (userData_complete _ _ _ _ _ _ _)
  | newImageStored =>
    exact ⟨fun uid hu => .inl (hkeep uid (h.profile hu (.inr ⟨_, hcb, rfl⟩))),
      fun _ _ hk => by cases List.mem_singleton.1 hk⟩
  | newURLFetched =>
    have hall : ∀ uid, d.currentUser = some uid → profile' uid := fun uid hu =>
      hkeep uid (h.profile hu (.inr ⟨_, hcb, rfl⟩))
    refine ⟨fun uid hu => .inl (hall uid hu), fun uid k hk => ?_⟩
    rcases List.mem_cons.1 hk with hk | hk
    · cases hk
    · cases issues_getUserCredentialsFromDatabase hk with
      | read hu => exact hall uid hu

/-! ## All devices -/

/-- What holds in every state of a run whose sign-ins find the profiles they rely on. -/
structure Ready (s : AState) : Prop where
  plain : Plain s
  reads : ∀ c uid k, (c, .single (.users uid) (.credentialsRead k)) ∈ s.asks → HasProfile s c uid
  replies : ∀ c k input, ⟨c, .credentialsRead k, input⟩ ∈ s.tasks →
    ∃ uid value, input = .value (.users uid) value ∧ Complete value ∧ HasProfile s c uid
  covered : ∀ c, Covered (HasProfile s c) (s.app c) (s.pending c)

/-- A device issues commands: what it needs for the next state is known of them. -/
theorem Ready.issue (h : Ready s) (hs : Transition (program P) s l s')
    (hcommit : ∀ i, l ≠ .commit i false) (hdie : ∀ c, l ≠ .die c)
    (hwrites : s'.writes = s.writes ++ newWrites c cmds)
    (hasks : s'.asks = s.asks ++ newAsks c cmds) (htasks : ∀ t ∈ s'.tasks, t ∈ s.tasks)
    (hchild : s'.childObs = s.childObs) (hvalue : s'.valueObs = s.valueObs)
    (happ : s'.app = Function.update s.app c d')
    (hcovered : (∀ uid, HasProfile s c uid → HasProfile s' c uid) →
      (∀ uid dict, updateUserIntoDatabaseWithUID uid dict ∈ cmds → Complete (some dict) →
        HasProfile s' c uid) →
      Covered (HasProfile s' c) d' (s.pending c ++ cmds.filterMap Cmd.completion) ∧
        ∀ uid k, .ask (.single (.users uid) (.credentialsRead k)) ∈ cmds → HasProfile s' c uid) :
    Ready s' := by
  have plain' := h.plain.step hs
  have keep : ∀ c uid, HasProfile s c uid → HasProfile s' c uid := fun c uid =>
    hasProfile_step h.plain.typed plain'.typed hs hcommit (hdie c)
  obtain ⟨hcov, hreads⟩ := hcovered (keep c) fun uid dict hcmd hdict => by
    have hw : (⟨c, .update (.users uid) dict, none⟩ : Write Loc Client Cb) ∈ s'.writes := by
      rw [hwrites]
      exact List.mem_append_right _ (mem_newWrites.2 ⟨rfl, hcmd⟩)
    exact hasProfile_of_write plain'.typed hw rfl hdict
  refine ⟨plain', fun c' uid k hk => ?_, fun c' k input ht => ?_, fun c' => ?_⟩
  · rw [hasks] at hk
    rcases List.mem_append.1 hk with hk | hk
    · exact keep c' uid (h.reads c' uid k hk)
    · obtain ⟨rfl, hcmd⟩ := mem_newAsks.1 hk
      exact hreads uid k hcmd
  · obtain ⟨uid, value, rfl, hvalue, hprofile⟩ := h.replies c' k input (htasks _ ht)
    exact ⟨uid, value, rfl, hvalue, keep c' uid hprofile⟩
  · have hpending : ∀ cb ∈ s'.pending c', cb ∈ s.pending c' ∨ c' = c ∧
        some cb ∈ cmds.map Cmd.completion := fun cb hcb =>
      mem_pending_issue hcb hwrites hasks htasks hchild hvalue
    rw [happ]
    by_cases hc : c' = c
    · subst hc
      rw [Function.update_self]
      refine hcov.mono (fun _ => id) fun cb hcb => List.mem_append.2 ?_
      refine (hpending cb hcb).imp_right fun ⟨_, hcb⟩ => ?_
      obtain ⟨cmd, hcmd, he⟩ := List.mem_map.1 hcb
      exact List.mem_filterMap.2 ⟨cmd, hcmd, he⟩
    · rw [Function.update_of_ne hc]
      refine (h.covered c').mono (keep c') fun cb hcb => ?_
      exact (hpending cb hcb).resolve_right fun hissued => hc hissued.1

/-- The steps of a run in which the server accepts every write, the sign-ins find the profiles they
rely on, and no registration of a new account is disturbed. -/
def SignsInReady (s : AState) : ALabel → Prop
  | .press a _ => PressReady (HasProfile s a.client) (s.app a.client) (s.pending a.client) a.press
  | .commit _ ok => ok = true
  | .run .. | .serve .. | .die _ => True

/-- The server answers: the device is told what it asked for. -/
theorem Ready.answer (h : Ready s) {ok : Bool} {a : Ask Loc Cb Data} (ha : (c, a) ∈ s.asks)
    {k : Response} {input : Input Loc} (ht : ⟨c, .credentialsRead k, input⟩ ∈ s.answer c a ok) :
    ∃ uid value, input = .value (.users uid) value ∧ Complete value ∧ HasProfile s c uid := by
  obtain ⟨user, hi⟩ := h.plain.asks _ ha
  have hcb := (mem_answer ht).2
  cases hi with
  | @read uid k' =>
    cases List.mem_singleton.1 ht
    exact ⟨uid, _, rfl, h.reads c uid _ ha, h.reads c uid _ ha⟩
  | upload haccount | url haccount =>
    obtain rfl := hcb
    cases haccount

/-- The server answers or a process ends: less is under way. -/
theorem Ready.shrink (h : Ready s) (hs : Transition (program P) s l s')
    (hcommit : ∀ i, l ≠ .commit i false) (hasks : ∀ x ∈ s'.asks, x ∈ s.asks ∧ l ≠ .die x.1)
    (hreplies : ∀ c k input, ⟨c, .credentialsRead k, input⟩ ∈ s'.tasks → l ≠ .die c ∧
      ∃ uid value, input = .value (.users uid) value ∧ Complete value ∧ HasProfile s c uid)
    (hcovered : ∀ c, (∀ cb ∈ s'.pending c, cb ∈ s.pending c) ∧ (l ≠ .die c → s'.app c = s.app c) ∧
      (l = .die c → (s'.app c).home = false ∧ s'.pending c = [])) : Ready s' := by
  have plain' := h.plain.step hs
  have keep : ∀ c, l ≠ .die c → ∀ uid, HasProfile s c uid → HasProfile s' c uid := fun c hdie uid =>
    hasProfile_step h.plain.typed plain'.typed hs hcommit hdie
  refine ⟨plain', fun c uid k hk => ?_, fun c k input ht => ?_, fun c => ?_⟩
  · obtain ⟨hk, hdie⟩ := hasks _ hk
    exact keep c hdie uid (h.reads c uid k hk)
  · obtain ⟨hdie, uid, value, rfl, hvalue, hprofile⟩ := hreplies c k input ht
    exact ⟨uid, value, rfl, hvalue, keep c hdie uid hprofile⟩
  · obtain ⟨hpending, happ, hdied⟩ := hcovered c
    by_cases hdie : l = .die c
    · obtain ⟨hhome, hnone⟩ := hdied hdie
      refine fun uid _ => .inr ⟨hhome, fun cb hcb => ?_⟩
      rw [hnone] at hcb
      cases hcb
    · rw [happ hdie]
      exact (h.covered c).mono (keep c hdie) hpending

theorem Ready.step (h : Ready s) (hl : SignsInReady s l) (hs : Transition (program P) s l s') :
    Ready s' := by
  have hs' := hs
  cases hs with
  | @press a e c app cmds hkey hact =>
    obtain ⟨d', rfl, happ, hp⟩ := pressed_of_act hact
    refine h.issue hs' (by simp) (by simp) rfl rfl (fun _ => id) rfl rfl happ ?_
    intro hkeep _
    obtain ⟨hcov, hreads⟩ := (h.covered a.client).pressed hl hp
    exact ⟨hcov.mono hkeep fun _ => id, fun uid k hk => hkeep uid (hreads uid k hk)⟩
  | @run i e t app cmds hkey ht hrun =>
    obtain ⟨d', happ, hc⟩ := called_of_handle hrun
    refine h.issue hs' (by simp) (by simp) rfl rfl
      (fun _ => List.mem_of_mem_eraseIdx) rfl rfl happ ?_
    exact (h.covered t.client).called (mem_pending_of_task (List.mem_of_getElem? ht)) hc
  | @apply i w hw hfirst =>
    have hmem := List.mem_of_getElem? hw
    refine h.shrink hs' (by simp) (fun x hx => ⟨hx, by simp⟩)
      (fun c k input ht => ⟨by simp, ?_⟩)
      fun c => ⟨fun cb => mem_pending_applied hmem, fun _ => rfl, fun he => by cases he⟩
    -- nothing is observed and no write has a completion
    simp only [State.applied_tasks, List.mem_append] at ht
    rcases ht with ht | (ht | ht) | ht
    · exact h.replies c k input ht
    · obtain ⟨o, ho, -⟩ := mem_childEvents.1 ht
      rw [h.plain.childObs] at ho
      cases ho
    · obtain ⟨o, ho, -⟩ := mem_valueEvents.1 ht
      rw [h.plain.valueObs] at ho
      cases ho
    · obtain ⟨cb, hcb, -⟩ := mem_ack.1 ht
      rw [(h.plain.writes w hmem).2] at hcb
      cases hcb
  | reject => cases hl
  | @serve i c a ok ha =>
    have hmem := List.mem_of_getElem? ha
    refine h.shrink hs' (by simp) (fun x hx => ⟨List.mem_of_mem_eraseIdx hx, by simp⟩)
      (fun c' k input ht => ⟨by simp, ?_⟩)
      fun c' => ⟨fun cb => mem_pending_served hmem, fun _ => rfl, fun he => by cases he⟩
    rcases List.mem_append.1 ht with ht | ht
    · exact h.replies c' k input ht
    · obtain rfl : c' = c := (mem_answer ht).1
      exact h.answer hmem ht
  | @die c =>
    refine h.shrink hs' (by simp) (fun x hx => ?_) (fun c' k input ht => ?_)
      fun c' => ⟨fun cb hcb => (mem_pending_died hcb).2, fun hdie => ?_, fun hdie => ?_⟩
    · obtain ⟨hx, hc⟩ := List.mem_filter.1 hx
      exact ⟨hx, fun he => of_decide_eq_true hc (Label.die.inj he).symm⟩
    · obtain ⟨ht, hc⟩ := List.mem_filter.1 ht
      exact ⟨fun he => of_decide_eq_true hc (Label.die.inj he).symm, h.replies c' k input ht⟩
    · exact Function.update_of_ne (fun he => hdie (congrArg Label.die he.symm)) _ _
    · cases hdie
      refine ⟨?_, List.eq_nil_iff_forall_not_mem.2 fun cb hcb => (mem_pending_died hcb).1 rfl⟩
      rw [State.died_app, program_die, Function.update_self]
      rfl

/-! ## Runs -/

/-- The apps have just been launched. The database, the store and the sessions are any. -/
structure Start (s : AState) : Prop where
  initial : Initial s
  home : ∀ c, (s.app c).home = false

theorem Ready.of_start (hs : Start s₀) : Ready s₀ where
  plain := .initial hs.initial
  reads c uid k hk := by simp [hs.initial.asks] at hk
  replies c k input ht := by simp [hs.initial.tasks] at ht
  covered c uid hu := by
    refine .inr ⟨hs.home c, fun cb hcb => ?_⟩
    simp [State.pending, hs.initial.writes, hs.initial.asks, hs.initial.tasks,
      hs.initial.childObs, hs.initial.valueObs] at hcb

/-- Every reply of `getUserCredentialsFromDatabase` that a device is about to handle has all seven
fields, so has the profile as the device sees it by then, and no forced unwrap traps. -/
def ProfilesUsable (s : AState) : Prop :=
  ∀ c k uid value, ⟨c, .credentialsRead k, .value (.users uid) value⟩ ∈ s.tasks →
    Complete value ∧ HasProfile s c uid ∧
      (credentialsRead k value (s.app c)).trapped = (s.app c).trapped

/-- Where the sign-ins find the profiles they rely on, a usable profile exists whenever one is
loaded, whatever becomes of the uploads. -/
theorem profilesUsable_of_reaches (hs : Start s₀)
    (h : Reaches (step (program P)) SignsInReady s₀ s) : ProfilesUsable s := by
  have hready : Ready s := h.invariant (.of_start hs) fun ih hl hstep =>
    ih.step hl (transition_of_step hstep)
  intro c k uid value ht
  obtain ⟨uid', value', he, hvalue, hprofile⟩ := hready.replies c k _ ht
  cases he
  exact ⟨hvalue, hprofile, trapped_credentialsRead hvalue⟩

/-! ## Signing up with Facebook, and then with Google -/

def sdk : Platform where
  email uid := uid ++ "@mail"
  jpegData image := some image.pixels
  absoluteString url := "/".intercalate url.path
  defaultImage := ⟨"default", 100, 100⟩
  isSome_defaultImage := rfl

def start : AState where
  tree := ∅
  objects := fun _ => none
  writes := []
  asks := []
  tasks := []
  childObs := []
  valueObs := []
  issued := []
  log := []
  app := fun _ => { currentUser := none, isLoggedIn := false }

theorem start_start : Start start := ⟨⟨rfl, rfl, rfl, rfl, rfl, rfl⟩, fun _ => rfl⟩

instance (profile : UID → Prop) [DecidablePred profile] (d : Device) (pending : List Cb) :
    DecidablePred (PressReady profile d pending) := fun p => by
  cases p <;> unfold PressReady <;> infer_instance

instance (s : AState) : DecidablePred (SignsInReady s)
  | .press a _ => inferInstanceAs (Decidable (PressReady _ _ _ a.press))
  | .commit _ ok => inferInstanceAs (Decidable (ok = true))
  | .run .. | .serve .. | .die _ => isTrue trivial

/-- The first sign-in of Alice is with Facebook. Later she signs in with Google. -/
def facebookFirst : List ALabel := [
  .press ⟨0, .facebookAuth "alice"⟩ ⟨"a", 0⟩, .serve 0 true, .run 0 ⟨"b", 1⟩, .serve 0 true,
  .run 0 ⟨"c", 2⟩, .press ⟨0, .homeDidAppear⟩ ⟨"d", 3⟩, .commit 0 true, .serve 0 true,
  .run 0 ⟨"e", 4⟩, .press ⟨0, .signOutPressed⟩ ⟨"f", 5⟩, .press ⟨0, .didSignInFor "alice"⟩ ⟨"g", 6⟩,
  .serve 0 true]

theorem facebookFirst_runs :
    (exec (step (program sdk)) SignsInReady start facebookFirst).isSome = true := by
  decide +kernel

theorem profilesUsable_facebookFirst :
    ProfilesUsable ((exec (step (program sdk)) SignsInReady start facebookFirst).get
      facebookFirst_runs) :=
  profilesUsable_of_reaches start_start (.of_exec (Option.some_get _).symm)

/-! ## Signing in without a profile -/

/-- The steps of a run with the presses `presses` in which the server accepts every write. -/
def Accepts (presses : Press → Bool) (_ : AState) : ALabel → Prop
  | .press a _ => presses a.press = true
  | .commit _ ok => ok = true
  | .run .. | .serve .. | .die _ => True

instance (presses : Press → Bool) (s : AState) : DecidablePred (Accepts presses s)
  | .press a _ => inferInstanceAs (Decidable (presses a.press = true))
  | .commit _ ok => inferInstanceAs (Decidable (ok = true))
  | .run .. | .serve .. | .die _ => isTrue trivial

/-- In every such run a usable profile exists whenever one is loaded. -/
def AlwaysUsable (P : Platform) (presses : Press → Bool) : Prop :=
  ∀ s₀ s, Start s₀ → Reaches (step (program P)) (Accepts presses) s₀ s → ProfilesUsable s

/-- The first sign-in of Alice is with Google. -/
def googleFirst : List ALabel := [.press ⟨0, .didSignInFor "alice"⟩ ⟨"a", 0⟩, .serve 0 true]

theorem googleFirst_runs :
    (exec (step (program sdk)) (Accepts fun _ => true) start googleFirst).isSome = true := by
  decide +kernel

/-- The upload of a registration fails, the app is launched again, and the flag opens `HomeVC`. -/
def facebookFails : List ALabel := [
  .press ⟨0, .facebookAuth "alice"⟩ ⟨"a", 0⟩, .serve 0 false, .run 0 ⟨"b", 1⟩, .serve 0 false,
  .run 0 ⟨"c", 2⟩, .die 0, .press ⟨0, .loginDidAppear⟩ ⟨"d", 3⟩,
  .press ⟨0, .homeDidAppear⟩ ⟨"e", 4⟩, .serve 0 true]

def Press.google : Press → Bool
  | .didSignInFor _ => true
  | _ => false

theorem facebookFails_runs :
    (exec (step (program sdk)) (Accepts fun p => !p.google) start facebookFails).isSome = true := by
  decide +kernel

/-- The first sign-in with Google loads a profile that is not there, and without Google so does a
launch after a registration that failed. -/
theorem not_profilesUsable :
    ¬ AlwaysUsable sdk (fun _ => true) ∧ ¬ AlwaysUsable sdk (fun p => !p.google) := by
  constructor
  · intro h
    have hdue := h start _ start_start (.of_exec (Option.some_get googleFirst_runs).symm)
    have hcomplete := (hdue 0 .goToHome "alice" none (List.mem_of_getElem? (i := 0) rfl)).1
    revert hcomplete
    decide
  · intro h
    have hdue := h start _ start_start (.of_exec (Option.some_get facebookFails_runs).symm)
    have hcomplete := (hdue 0 .printed "alice" none (List.mem_of_getElem? (i := 0) rfl)).1
    revert hcomplete
    decide

end FLChat.Accounts
