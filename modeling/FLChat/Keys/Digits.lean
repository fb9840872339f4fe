import Mathlib.Data.Nat.Digits.Lemmas

/-!
# Digits of a fixed number of places

A list of digits in base `b`, the most significant first, is a number (`Digits.value`). Lists of one
length are in lexicographic order exactly when their numbers are in order (`Digits.lt_iff`), and
writing one digit moves the number by the weight of its place (`Digits.value_set`).
-/

namespace Digits

variable {b : ℕ} {ds es : List (Fin b)}

def value (ds : List (Fin b)) : ℕ := Nat.ofDigits b (ds.map Fin.val).reverse

@[simp] theorem value_nil : value ([] : List (Fin b)) = 0 := rfl

@[simp] theorem value_cons (d : Fin b) (ds : List (Fin b)) :
    value (d :: ds) = d * b ^ ds.length + value ds := by
  simp [value, Nat.ofDigits_append, Nat.add_comm, Nat.mul_comm]

theorem value_append (ds es : List (Fin b)) :
    value (ds ++ es) = value ds * b ^ es.length + value es := by
  simp [value, Nat.ofDigits_append, Nat.add_comm, Nat.mul_comm]

theorem value_lt (ds : List (Fin b)) : value ds < b ^ ds.length := by
  induction ds with
  | nil => simp
  | cons d ds ih =>
    have hd : (d : ℕ) + 1 ≤ b := d.isLt
    calc value (d :: ds) = d * b ^ ds.length + value ds := value_cons d ds
      _ < d * b ^ ds.length + b ^ ds.length := by omega
      _ = (d + 1) * b ^ ds.length := by ring
      _ ≤ b * b ^ ds.length := Nat.mul_le_mul_right _ hd
      _ = b ^ (d :: ds).length := by rw [List.length_cons, pow_succ, Nat.mul_comm]

/-- The first digits decide. -/
theorem mul_add_lt_iff {m n u v w : ℕ} (hu : u < w) (hv : v < w) :
    m * w + u < n * w + v ↔ m < n ∨ m = n ∧ u < v := by
  constructor
  · intro h
    rcases Nat.lt_trichotomy m n with hmn | rfl | hmn
    · exact .inl hmn
    · exact .inr ⟨rfl, by omega⟩
    · have : (n + 1) * w ≤ m * w := Nat.mul_le_mul_right w hmn
      have : (n + 1) * w = n * w + w := by ring
      omega
  · rintro (hmn | ⟨rfl, huv⟩)
    · have : (m + 1) * w ≤ n * w := Nat.mul_le_mul_right w hmn
      have : (m + 1) * w = m * w + w := by ring
      omega
    · omega

theorem lt_iff (h : ds.length = es.length) : ds < es ↔ value ds < value es := by
  induction ds generalizing es with
  | nil =>
    cases List.length_eq_zero_iff.1 h.symm
    simp
  | cons d ds ih =>
    obtain _ | ⟨e, es⟩ := es
    · cases h
    have hlen : ds.length = es.length := Nat.succ.inj h
    have hds := value_lt ds
    rw [hlen] at hds
    rw [List.cons_lt_cons_iff, value_cons, value_cons, hlen, mul_add_lt_iff hds (value_lt es),
      ih hlen, Fin.lt_def, Fin.ext_iff]

/-- Digits of one length are determined by their number. -/
theorem value_inj (hb : 1 < b) (hlen : ds.length = es.length) (h : value ds = value es) :
    ds = es := by
  have hrev := Nat.ofDigits_inj_of_len_eq hb (by simp [hlen]) (by simp) (by simp) h
  exact List.map_injective_iff.2 Fin.val_injective (List.reverse_injective hrev)

theorem value_set {i : ℕ} (hi : i < ds.length) (d : Fin b) :
    value (ds.set i d) + ds[i] * b ^ (ds.length - 1 - i)
      = value ds + d * b ^ (ds.length - 1 - i) := by
  induction ds generalizing i with
  | nil => cases hi
  | cons e ds ih =>
    cases i with
    | zero =>
      simp only [List.set_cons_zero, value_cons, List.getElem_cons_zero, List.length_cons,
        Nat.add_sub_cancel, Nat.sub_zero]
      omega
    | succ i =>
      have hi' : i < ds.length := Nat.lt_of_succ_lt_succ hi
      have hplace : (e :: ds).length - 1 - (i + 1) = ds.length - 1 - i := by
        rw [List.length_cons]
        omega
      rw [hplace, List.set_cons_succ, value_cons, value_cons, List.getElem_cons_succ,
        List.length_set]
      have := ih hi'
      omega

/-- The largest digit everywhere is the largest number. -/
theorem value_add_one_of_replicate (n : ℕ) (d : Fin b) (hd : (d : ℕ) + 1 = b) :
    value (List.replicate n d) + 1 = b ^ n := by
  induction n with
  | zero => simp
  | succ n ih =>
    rw [List.replicate_succ, value_cons, List.length_replicate, pow_succ]
    calc d * b ^ n + value (List.replicate n d) + 1 = d * b ^ n + b ^ n := by omega
      _ = b ^ n * (d + 1) := by ring
      _ = b ^ n * b := by rw [hd]

end Digits
