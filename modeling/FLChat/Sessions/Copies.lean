import FLChat.Sessions.Snapshots

/-!
# Copies and changes

Nothing changes a copy: a change in `SettingsVC` goes to the profile alone. So a list of friends
shows what the profile had when it was copied, which is what it has as long as nobody changes it
(`agreeing_of_reaches`), and after a change it shows what was there before (`not_agreeing`).
-/

namespace FLChat.Sessions

open Realtime
open FLChat.Accounts (UID Dict stringAt)
open FLChat.Friends (Call)

variable {P : Platform} {s₀ s s' : SState} {l : SLabel} {c : Client} {uid : UID} {op : Op Loc}
  {app : App} {text : Text} {value : String}

/-! ## Writes that leave a value -/

theorem Directory.updateChildValues_single (uid : UID) (dict : Dict) (directory : Directory) :
    Directory.updateChildValues (Directory.single uid dict) directory =
      directory.update (.users uid) dict :=
  rfl

theorem HeldBy.update_of_keeps {directory : Directory} {uid' : UID} {dict : Dict}
    (h : HeldBy directory uid text value)
    (hkeeps : uid' = uid → dict text.field = none ∨ stringAt (some dict) text.field = some value) :
    HeldBy (directory.update (.users uid') dict) uid text value := by
  obtain ⟨user, huser, hvalue⟩ := h
  by_cases hu : uid' = uid
  · subst hu
    refine ⟨dict.updateChildValues user, ?_, ?_⟩
    · have hmerged : directory.merged (.users uid') dict = dict.updateChildValues user := by
        unfold Tree.merged
        rw [show directory.lookup (.users uid') = some user from huser]
        rfl
      rw [Directory.profile, Tree.lookup_update_self, hmerged]
    · rcases hkeeps rfl with hnone | hsome
      · simp only [stringAt, Option.bind_some, Dict.updateChildValues, hnone, Option.none_or]
        exact hvalue
      · exact stringAt_updateChildValues_new hsome
  · refine ⟨user, ?_, hvalue⟩
    rw [Directory.profile, Tree.lookup_update_ne fun he => hu (Accounts.Loc.users.inj he).symm]
    exact huser

theorem spares_of_single {uid' : UID} {dict : Dict}
    (hdict : dict text.field = none ∨ ∃ v, stringAt (some dict) text.field = some v)
    (hsame : uid' = uid → ∀ v, stringAt (some dict) text.field = some v → v = value) :
    copying.Spares (.update .users (Directory.single uid' dict)) ⟨some uid, text, value⟩ := by
  intro t h
  obtain ⟨directory, uid'', hdirectory, huid, hheld⟩ := heldIn_iff.1 h
  obtain rfl := huid uid rfl
  refine heldIn_iff.2 ⟨directory.update (.users uid') dict, uid, ?_,
    fun u hu => (Option.some.inj hu).symm, hheld.update_of_keeps fun he => ?_⟩
  · rw [Op.apply, Tree.lookup_update_self, Tree.merged, hdirectory]
    exact congrArg some (Directory.updateChildValues_single uid' dict directory)
  · rcases hdict with hnone | ⟨v, hv⟩
    · exact .inl hnone
    · rw [hsame he v hv] at hv
      exact .inr hv

theorem spares_of_not_touches {f : Fact} (h : op.touches .users = false) : copying.Spares op f := by
  rintro t ⟨l, v, rfl, hv, hf⟩
  exact ⟨.users, v, rfl, (Op.lookup_apply_of_not_touches h t).trans hv, hf⟩

/-- A write leaves a value, if it does not write another one in its place. -/
theorem spares_of_wrote {ev : SEvent} (hw : Wrote P app ev op)
    (hsame : ∀ dict v, op = .update .users (Directory.single uid dict) →
      stringAt (some dict) text.field = some v → v = value) :
    copying.Spares op ⟨some uid, text, value⟩ := by
  cases hw with
  | @edit c p e uid' dict hu hdict =>
    refine spares_of_single ?_ fun he v hv => hsame dict v (by rw [he]) hv
    cases p <;> cases hdict <;> cases text <;> first | exact .inl rfl | exact .inr ⟨_, rfl⟩
  | registration =>
    refine spares_of_single ?_ fun he v hv => hsame _ v (by rw [he]) hv
    cases text <;> exact .inr ⟨_, rfl⟩
  | picture =>
    refine spares_of_single ?_ fun he v hv => hsame _ v (by rw [he]) hv
    cases text with
    | image => exact .inr ⟨_, rfl⟩
    | name | email | phone => exact .inl rfl
  | request | friend | index => exact spares_of_not_touches rfl
  | remove hp => exact spares_of_not_touches hp

/-! ## Runs -/

/-- The server has taken a write of another value since. -/
def ChangedSince (t s : SState) (uid : UID) (text : Text) (value : String) : Prop :=
  ∃ c dict v, .resolved c (.update .users (Directory.single uid dict)) true ∈ since t s ∧
    stringAt (some dict) text.field = some v ∧ v ≠ value

/-- Each entry of a list of friends has what was in the profile, and what is still there if nobody
changed it. -/
def Agreeing (P : Platform) (s₀ s : SState) : Prop :=
  ∀ c call x, call.list = .friends → x ∈ s.app.arrayUsers c call → ∃ uid, x.userId = some uid ∧
    ∀ text : Text, ∃ t, Reaches (step (program P)) (fun _ _ => True) s₀ t ∧
      Reaches (step (program P)) (fun _ _ => True) t s ∧ HeldNow t uid text (text.ofUsers x) ∧
      (HeldNow s uid text (text.ofUsers x) ∨ ChangedSince t s uid text (text.ofUsers x))

/-- Everybody sends and accepts with the own profile loaded, profiles stay in their sessions, and no
write is lost. -/
def Orderly (s : SState) (l : SLabel) : Prop :=
  SameSession s l ∧ Presents s l ∧ Copying.LosesNothing s l

theorem named_of_start (hs : Start s) : Named s.app := fun c call _ x hx =>
  absurd (.inl ⟨call, hx⟩) (hs.listed c x)

theorem named_step (h : Named s.app) (hs : Transition (program P) s l s') : Named s'.app := by
  cases hs with
  | @press a e c app cmds hkey hact =>
    obtain ⟨⟨app', cmds'⟩, hpress, he⟩ := Option.map_eq_some_iff.1 hact
    cases he
    obtain ⟨c, p⟩ := a
    cases pressed_of_press hpress with
    | kept hext => exact hext.named h
    | signedIn | signedOut => exact h
  | @run i e t app cmds hkey ht hrun =>
    obtain ⟨c, cb, input⟩ := t
    cases called_of_callback hrun with
    | kept hext => exact hext.named h
    | loaded => exact h
  | apply | reject | serve => exact h
  | @die c =>
    intro c' call hlist x hx
    rcases update_cases (Q := fun arrays : Call → List Friends.Users => x ∈ arrays call) hx with
      hx | ⟨-, hx⟩
    · exact h c' call hlist x hx
    · cases hx

/-- When nothing is in flight, a list of friends differs from the profiles only by what was changed
since they were copied. -/
theorem agreeing_of_reaches (hs : Start s₀) (htree : s₀.tree = ∅)
    (h : Reaches (step (program P)) Orderly s₀ s) (hq : s.Quiescent) : Agreeing P s₀ s := by
  intro c call x hlist hx
  have hnamed : Named s.app := h.invariant (I := fun s => Named s.app) (named_of_start hs)
    fun ih _ hstep => named_step ih (transition_of_step hstep)
  obtain ⟨uid, huid⟩ := Option.isSome_iff_exists.1 (hnamed c call (by simp [hlist]) x hx)
  refine ⟨uid, huid, fun text => ?_⟩
  have hfaithful : copying.Faithful s :=
    Copying.faithful_of_reaches merges (.initial hs.initial htree (not_holds_of_start hs))
      (fun t l _ hl => copies_of_presents hl.1 hl.2.1) h
  have hknown := hfaithful.memory c ⟨some uid, text, text.ofUsers x⟩
    (.inr ⟨x, .inl ⟨call, hx⟩, (fun u hu => huid.trans hu), rfl⟩)
  have htold : copying.Told s.log ⟨some uid, text, text.ofUsers x⟩ := by
    refine hknown.resolve_right fun ⟨op, hop, _⟩ => ?_
    simp [State.queue, hq.writes, queueOf] at hop
  obtain ⟨t, ht, hts, hheld⟩ := Copying.held_of_told overwrites hs.initial h htold
  refine ⟨t, ht.mono fun _ _ _ => trivial, hts.mono fun _ _ _ => trivial,
    heldIn_iff_heldNow.1 hheld, ?_⟩
  by_cases hchanged : ChangedSince t s uid text (text.ofUsers x)
  · exact .inr hchanged
  refine .inl (heldIn_iff_heldNow.1 (Copying.held_of_visible merges overwrites
    (fun t l hl => hl.2.2) hts (.inl hheld) hq fun c' op hop => ?_))
  obtain ⟨app, ev, hwrote⟩ := wrote_of_resolved hs.initial h (List.mem_of_mem_take hop)
  refine spares_of_wrote hwrote fun dict v he hv => ?_
  by_contra hne
  exact hchanged ⟨c', dict, v, he ▸ hop, hv, hne⟩

/-! ## A change -/

instance (s : SState) : DecidablePred (Copying.LosesNothing s)
  | .commit _ ok => inferInstanceAs (Decidable (ok = true))
  | .die c => inferInstanceAs (Decidable (∀ w ∈ s.writes, w.client ≠ c))
  | .press .. | .run .. | .serve .. => isTrue trivial

instance (s : SState) (l : SLabel) : Decidable (Orderly s l) :=
  inferInstanceAs (Decidable (_ ∧ _ ∧ _))

/-- The request is removed, Alice changes her name, and then Bob looks at his friends. -/
def changing : List SLabel := [
  .serve 0 true, .run 0 ⟨"27", 27⟩, .commit 0 true, .commit 0 true, .commit 0 true,
  .run 0 ⟨"28", 28⟩, .press ⟨0, .account (.changeNameBtnPressed "Alice")⟩ ⟨"29", 29⟩,
  .commit 0 true, .serve 0 true, .run 0 ⟨"30", 30⟩, .press ⟨1, .search .friends ""⟩ ⟨"q", 31⟩,
  .serve 0 true, .run 0 ⟨"32", 32⟩, .serve 0 true, .run 0 ⟨"33", 33⟩, .serve 0 true,
  .run 0 ⟨"34", 34⟩]

theorem changing_runs : (exec (step (program sdk)) Orderly start
    (registering ++ asking ++ accepting ++ changing)).isSome = true := by
  decide +kernel

def changed : SState := (exec (step (program sdk)) Orderly start
  (registering ++ asking ++ accepting ++ changing)).get changing_runs

theorem changed_reached : Reaches (step (program sdk)) Orderly start changed :=
  .of_exec (Option.some_get _).symm

theorem changed_quiescent : changed.Quiescent := by
  refine ⟨?_, ?_, ?_⟩ <;> rw [← List.length_eq_zero_iff] <;> decide +kernel

theorem agreeing_changed : Agreeing sdk start changed :=
  agreeing_of_reaches start_start rfl changed_reached changed_quiescent

/-- Bob sees the name that Alice had when they became friends. -/
theorem not_agreeing : ¬ ∀ s₀ s, Start s₀ → s₀.tree = ∅ →
    Reaches (step (program sdk)) Orderly s₀ s → s.Quiescent → ∀ c call x uid,
      call.list = .friends → call.query = "" → x ∈ s.app.arrayUsers c call → x.userId = some uid →
        ∀ text : Text, HeldNow s uid text (text.ofUsers x) := by
  intro h
  have hx : (⟨some "alice", "User name", "https://profile_images/alice", "alice@mail", "User phone",
      true⟩ : Friends.Users) ∈ changed.app.arrayUsers 1 ⟨⟨"bob", 1⟩, .friends, "", "q"⟩ := by
    decide +kernel
  obtain ⟨directory, hdirectory, user, huser, hname⟩ := h start changed start_start rfl
    changed_reached changed_quiescent 1 _ _ "alice" rfl rfl hx rfl .name
  have hnow : (changed.tree.lookup .users).bind (fun directory : Directory =>
      (Directory.profile directory "alice").bind fun user => stringAt (some user) .name) =
        some "Alice" := by
    decide +kernel
  rw [hdirectory, Option.bind_some, huser, Option.bind_some] at hnow
  exact absurd (hname.symm.trans hnow) (by decide)

end FLChat.Sessions
