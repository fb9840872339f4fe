import Mathlib.Data.List.AList
import Mathlib.Data.List.Dedup

/-!
# The tree of a realtime database

The data is a finite map from the locations that carry a value to their values. A location has a
path from the root, and the type of its value is fixed by the location (`Schema`). Writing merges
into the value that is there, and removing takes away everything at or below a path. The children
of a path are the names of the next segment among the locations below it: they are what child
observers are told about.
-/

namespace Realtime

/-- A path of the tree, from the root down. -/
abbrev Path := List String

/-- The locations of a database, with the type of the value each of them carries, its path, and
what writing a value over an existing one leaves there. -/
class Schema (Loc : Type) where
  Val : Loc → Type
  path : Loc → Path
  merge : (l : Loc) → (new old : Val l) → Val l

export Schema (Val path)

/-- The contents of the database. -/
abbrev Tree (Loc : Type) [Schema Loc] := AList (Schema.Val : Loc → Type)

/-- Filtering entries by their location leaves the others' lookups alone. -/
theorem dlookup_filter {α : Type} [DecidableEq α] {β : α → Type} (p : α → Bool) (l : α)
    (es : List (Sigma β)) :
    (es.filter (fun e => p e.1)).dlookup l = if p l then es.dlookup l else none := by
  induction es with
  | nil => simp
  | cons e es ih =>
    obtain ⟨l', v⟩ := e
    by_cases hl : l = l'
    · subst hl
      by_cases hp : p l
      · simp [hp]
      · simp only [List.filter_cons, hp, Bool.false_eq_true, ↓reduceIte] at ih ⊢
        exact ih
    · by_cases hp : p l'
      · simp only [List.filter_cons, hp, ↓reduceIte]
        rw [List.dlookup_cons_ne _ _ hl, List.dlookup_cons_ne _ _ hl, ih]
      · simp only [List.filter_cons, hp, Bool.false_eq_true, ↓reduceIte]
        rw [List.dlookup_cons_ne _ _ hl, ih]

namespace Tree

variable {Loc : Type} [Schema Loc]

/-! ## Writing and removing -/

section Write

variable [DecidableEq Loc]

/-- The value at `l` after `v` is written there. -/
def merged (t : Tree Loc) (l : Loc) (v : Val l) : Val l :=
  match t.lookup l with
  | none => v
  | some w => Schema.merge l v w

/-- Write `v` at `l`. -/
def update (t : Tree Loc) (l : Loc) (v : Val l) : Tree Loc := t.insert l (t.merged l v)

theorem mem_update {t : Tree Loc} {l l' : Loc} {v : Val l} :
    l' ∈ t.update l v ↔ l' = l ∨ l' ∈ t := AList.mem_insert _

@[simp] theorem lookup_update_self (t : Tree Loc) (l : Loc) (v : Val l) :
    (t.update l v).lookup l = some (t.merged l v) := AList.lookup_insert _

theorem lookup_update_ne {t : Tree Loc} {l l' : Loc} {v : Val l} (h : l' ≠ l) :
    (t.update l v).lookup l' = t.lookup l' := AList.lookup_insert_ne h

/-- Writing elsewhere, one value after the other. -/
theorem lookup_foldl_update_of_not_mem {es : List (Sigma (Val : Loc → Type))} {l : Loc}
    (h : l ∉ es.keys) (t : Tree Loc) :
    (es.foldl (fun t e => t.update e.1 e.2) t).lookup l = t.lookup l := by
  induction es generalizing t with
  | nil => rfl
  | cons e es ih =>
    rw [List.keys_cons, List.mem_cons, not_or] at h
    rw [List.foldl_cons, ih h.2, lookup_update_ne h.1]

/-- Where no location is written twice, each has what was written there. -/
theorem lookup_foldl_update {es : List (Sigma (Val : Loc → Type))} {l : Loc} {v : Val l}
    (h : es.NodupKeys) (hv : ⟨l, v⟩ ∈ es) (t : Tree Loc) :
    ∃ t' : Tree Loc, (es.foldl (fun t e => t.update e.1 e.2) t).lookup l = some (t'.merged l v) := by
  induction es generalizing t with
  | nil => cases hv
  | cons e es ih =>
    obtain ⟨hnew, hes⟩ := List.nodupKeys_cons.1 h
    rcases List.mem_cons.1 hv with rfl | hv
    · refine ⟨t, ?_⟩
      rw [List.foldl_cons, lookup_foldl_update_of_not_mem hnew, lookup_update_self]
    · exact ih hes hv _

end Write

/-- Remove everything at or below the path `p`. -/
def remove (t : Tree Loc) (p : Path) : Tree Loc :=
  ⟨t.entries.filter (fun e => !p.isPrefixOf (path e.1)),
    t.nodupKeys.sublist List.filter_sublist⟩

theorem lookup_remove [DecidableEq Loc] (t : Tree Loc) (p : Path) (l : Loc) :
    (t.remove p).lookup l = if p.isPrefixOf (path l) then none else t.lookup l := by
  have h := dlookup_filter (fun l => !p.isPrefixOf (path l)) l t.entries
  have e : (t.remove p).lookup l =
      (t.entries.filter (fun e => !p.isPrefixOf (path e.1))).dlookup l := rfl
  rw [e, h]
  by_cases hp : p.isPrefixOf (path l)
  · simp [hp]
  · simp only [Bool.not_eq_true] at hp
    simp only [hp, Bool.not_false, ↓reduceIte, Bool.false_eq_true]
    rfl

theorem mem_remove [DecidableEq Loc] {t : Tree Loc} {p : Path} {l : Loc} :
    l ∈ t.remove p ↔ l ∈ t ∧ ¬ p <+: path l := by
  rw [← AList.lookup_isSome, ← AList.lookup_isSome, lookup_remove, ← List.isPrefixOf_iff_prefix]
  by_cases hp : p.isPrefixOf (path l) <;> simp [hp]

/-! ## Children -/

/-- The name under which `l` hangs below the path `p`, if it does. -/
def childKey (p : Path) (l : Loc) : Option String :=
  if p.isPrefixOf (path l) then (path l)[p.length]? else none

theorem prefix_of_childKey {p : Path} {l : Loc} {k : String} (h : childKey p l = some k) :
    p <+: path l := by
  unfold childKey at h
  split at h
  · next hp => exact List.isPrefixOf_iff_prefix.1 hp
  · cases h

/-- The names of the children of `p`. -/
def children (t : Tree Loc) (p : Path) : List String :=
  (t.keys.filterMap (childKey p)).dedup

theorem mem_children {t : Tree Loc} {p : Path} {k : String} :
    k ∈ t.children p ↔ ∃ l ∈ t, childKey p l = some k := by
  simp [children, AList.mem_keys]

theorem children_nodup (t : Tree Loc) (p : Path) : (t.children p).Nodup := List.nodup_dedup _

theorem mem_children_update [DecidableEq Loc] {t : Tree Loc} {p : Path} {l : Loc} {v : Val l}
    {k : String} :
    k ∈ (t.update l v).children p ↔ childKey p l = some k ∨ k ∈ t.children p := by
  simp only [mem_children, mem_update]
  constructor
  · rintro ⟨l', rfl | h, hk⟩
    · exact .inl hk
    · exact .inr ⟨l', h, hk⟩
  · rintro (hk | ⟨l', h, hk⟩)
    · exact ⟨l, .inl rfl, hk⟩
    · exact ⟨l', .inr h, hk⟩

theorem mem_children_of_remove [DecidableEq Loc] {t : Tree Loc} {p q : Path} {k : String}
    (h : k ∈ (t.remove q).children p) : k ∈ t.children p := by
  obtain ⟨l, hl, hk⟩ := mem_children.1 h
  exact mem_children.2 ⟨l, (mem_remove.1 hl).1, hk⟩

end Tree

/-- One write of a client. -/
inductive Op (Loc : Type) [Schema Loc]
  | update (l : Loc) (v : Val l)
  | remove (p : Path)

namespace Op

variable {Loc : Type} [Schema Loc] [DecidableEq Loc]

/-- What the server does with a write it accepts. -/
def apply : Op Loc → Tree Loc → Tree Loc
  | .update l v, t => t.update l v
  | .remove p, t => t.remove p

/-- The write changes what is at `l`. -/
def touches : Op Loc → Loc → Bool
  | .update l' _, l => decide (l' = l)
  | .remove p, l => p.isPrefixOf (path l)

theorem lookup_apply_of_not_touches {op : Op Loc} {l : Loc} (h : op.touches l = false)
    (t : Tree Loc) : (op.apply t).lookup l = t.lookup l := by
  cases op with
  | update l' v =>
    simp only [touches, decide_eq_false_iff_not] at h
    exact Tree.lookup_update_ne (fun e => h e.symm)
  | remove p =>
    simp only [touches] at h
    simp [apply, Tree.lookup_remove, h]

end Op

end Realtime
