import FLChat.Accounts.Model
import FLChat.Realtime.View

/-!
# Complete profiles

`getUserCredentialsFromDatabase` unwraps each field of the reply, so it needs a profile in which
every field is there and has its type (`credentials_isSome`). What the program writes has the right
types (`WellTyped`), so a field that a device sees stays there (`hasProfile_step`).
-/

namespace FLChat.Accounts

open Realtime

variable {P : Platform} {s s' : AState} {l : ALabel} {c : Client} {uid : UID} {f : Field}
  {value : Option Dict} {d : Dict}

/-- The field can be unwrapped. -/
def readable (value : Option Dict) (f : Field) : Bool :=
  match f with
  | .phone | .name | .email | .image => (stringAt value f).isSome
  | .online | .notificationOn | .notificationSound => (boolAt value f).isSome

/-- The profile has all seven fields. -/
def Complete (value : Option Dict) : Prop := ∀ f, readable value f = true

instance (value : Option Dict) : Decidable (Complete value) :=
  inferInstanceAs (Decidable (∀ f, readable value f = true))

/-- No forced unwrap of a complete profile fails, and in every other profile one does. -/
theorem credentials_isSome : (credentials value).isSome = true ↔ Complete value := by
  constructor
  · intro h
    obtain ⟨user, h⟩ := Option.isSome_iff_exists.1 h
    simp only [credentials, Option.bind_eq_bind, Option.bind_eq_some_iff] at h
    obtain ⟨_, hphone, _, hname, _, hemail, _, himage, _, honline, _, hon, _, hsound, -⟩ := h
    intro f
    cases f <;> simp [readable, *]
  · intro h
    obtain ⟨_, hphone⟩ := Option.isSome_iff_exists.1 (h .phone)
    obtain ⟨_, hname⟩ := Option.isSome_iff_exists.1 (h .name)
    obtain ⟨_, hemail⟩ := Option.isSome_iff_exists.1 (h .email)
    obtain ⟨_, himage⟩ := Option.isSome_iff_exists.1 (h .image)
    obtain ⟨_, honline⟩ := Option.isSome_iff_exists.1 (h .online)
    obtain ⟨_, hon⟩ := Option.isSome_iff_exists.1 (h .notificationOn)
    obtain ⟨_, hsound⟩ := Option.isSome_iff_exists.1 (h .notificationSound)
    simp [credentials, hphone, hname, hemail, himage, honline, hon, hsound]

/-- A complete profile does not trap the device that loads it. -/
theorem trapped_credentialsRead (h : Complete value) {k : Response} {device : Device} :
    (credentialsRead k value device).trapped = device.trapped := by
  obtain ⟨user, huser⟩ := Option.isSome_iff_exists.1 (credentials_isSome.2 h)
  simp only [credentialsRead, huser]
  cases k <;> rfl

/-! ## Writing fields -/

/-- Every field of the dictionary has its type. -/
def WellTyped (d : Dict) : Prop := ∀ f, (d f).isSome = true → readable (some d) f = true

theorem userData_complete (email phone name image : String) (online notificationOn
    notificationSound : Bool) :
    Complete (some (userData email phone name image online notificationOn notificationSound)) := by
  intro f
  cases f <;> rfl

theorem Complete.wellTyped (h : Complete (some d)) : WellTyped d := fun f _ => h f

/-- Whether a field can be unwrapped depends on its value alone. -/
theorem readable_congr {d d' : Dict} (h : d f = d' f) :
    readable (some d) f = readable (some d') f := by
  cases f <;> simp [readable, stringAt, boolAt, h]

theorem isSome_of_readable (h : readable (some d) f = true) : (d f).isSome = true := by
  cases hf : d f with
  | some v => rfl
  | none => cases f <;> simp [readable, stringAt, boolAt, hf] at h

theorem wellTyped_single {v : Any} (h : readable (some (.single f v)) f = true) :
    WellTyped (.single f v) := by
  intro f' hf'
  by_cases he : f' = f
  · rw [he]
    exact h
  · simp [Dict.single, he] at hf'

theorem readable_updateChildValues {new old : Dict} (hnew : WellTyped new) :
    readable (some (new.updateChildValues old)) f = true ↔
      readable (some old) f = true ∨ readable (some new) f = true := by
  cases hf : new f with
  | none =>
    have hno : ¬ readable (some new) f = true := fun h => by simpa [hf] using isSome_of_readable h
    have hold : readable (some (new.updateChildValues old)) f = readable (some old) f :=
      readable_congr (by simp [Dict.updateChildValues, hf])
    rw [or_iff_left hno, hold]
  | some v =>
    have hyes : readable (some new) f = true := hnew f (by simp [hf])
    have hnew : readable (some (new.updateChildValues old)) f = readable (some new) f :=
      readable_congr (by simp [Dict.updateChildValues, hf])
    rw [hnew]
    exact (or_iff_right_of_imp fun _ => hyes).symm

/-! ## What the device sees -/

/-- The write puts fields of the right type into a profile. -/
def Typed : Op Loc → Prop
  | .update (.users _) d => WellTyped d
  | .remove _ => False

/-- The write gives the field to the profile of `uid`. -/
def Gives (uid : UID) (f : Field) : Op Loc → Prop
  | .update (.users uid') d => uid' = uid ∧ readable (some d) f = true
  | .remove _ => False

theorem readable_apply {op : Op Loc} (h : Typed op) (t : Realtime.Tree Loc) :
    readable ((op.apply t).lookup (.users uid)) f = true ↔
      readable (t.lookup (.users uid)) f = true ∨ Gives uid f op := by
  cases op with
  | remove p => exact h.elim
  | update l d =>
    obtain ⟨uid'⟩ := l
    by_cases he : uid' = uid
    · subst he
      have hnone : ¬ readable none f = true := by cases f <;> simp [readable, stringAt, boolAt]
      simp only [Op.apply, Tree.lookup_update_self, Tree.merged, Gives, true_and]
      cases t.lookup (Loc.users uid') with
      | none => exact (or_iff_right hnone).symm
      | some old => exact readable_updateChildValues h
    · have hl : Loc.users uid ≠ .users uid' := fun hl => he (Loc.users.inj hl).symm
      simp [Op.apply, Tree.lookup_update_ne hl, Gives, he]

/-- The device sees a complete profile. -/
def HasProfile (s : AState) (c : Client) (uid : UID) : Prop :=
  Complete ((s.view c).lookup (.users uid))

instance (s : AState) (c : Client) (uid : UID) : Decidable (HasProfile s c uid) :=
  inferInstanceAs (Decidable (Complete _))

/-- A device that sees a profile goes on seeing it until its process ends. -/
theorem hasProfile_step (h : ∀ w ∈ s.writes, Typed w.op) (h' : ∀ w ∈ s'.writes, Typed w.op)
    (hs : Transition (program P) s l s') (hcommit : ∀ i, l ≠ .commit i false) (hdie : l ≠ .die c)
    (hprofile : HasProfile s c uid) : HasProfile s' c uid := fun f =>
  view_step (Q := fun t => readable (t.lookup (.users uid)) f = true)
    (fun _ hop t => readable_apply hop t) h h' hs hcommit hdie (hprofile f)

/-- A device that has written a profile sees it. -/
theorem hasProfile_of_write (h : ∀ w ∈ s.writes, Typed w.op) {w : Write Loc Client Cb}
    (hw : w ∈ s.writes) (hop : w.op = .update (.users uid) d) (hd : Complete (some d)) :
    HasProfile s w.client uid := fun f =>
  (view_iff (Q := fun t => readable (t.lookup (.users uid)) f = true)
    (fun _ hop t => readable_apply hop t) h).2
      (.inr ⟨w, hw, rfl, by rw [hop]; exact ⟨rfl, hd f⟩⟩)

end FLChat.Accounts
