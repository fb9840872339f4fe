import FLChat.Keys.Digits
import Mathlib.Data.Prod.Lex
import Mathlib.Data.List.Lex
import Mathlib.Tactic.IntervalCases

/-!
# The order in which the database keeps children

`compareKey` lists the children of a node: the decimal numbers of 32 bits by value and then by
length, behind them the other keys by their UTF-16 code units. It is the order of a rank
(`rank_lt`), so it never says that each of two keys is before the other, and it takes different keys
for one only where they are zeros with a sign and without (`compareKey_laws`).
-/

namespace FLChat.Keys

/-- The UTF-16 code units of a character. -/
def charUnits (c : Char) : List ℕ :=
  if c.toNat < 0x10000 then [c.toNat]
  else [0xD800 + (c.toNat - 0x10000) / 0x400, 0xDC00 + (c.toNat - 0x10000) % 0x400]

/-- The UTF-16 code units of a string. -/
def unichars (s : String) : List ℕ := s.toList.flatMap charUnits

/-- The value of decimal digits, the ones in front worth `value`. -/
def parseDigits (value : ℤ) : List ℕ → Option ℤ
  | [] => some value
  | c :: str => if c < 48 ∨ 57 < c then none else parseDigits (value * 10 + (c - 48 : ℕ)) str

def tryParseStringToInt (str : List ℕ) : Option ℤ :=
  if str.length > 11 ∨ str.length = 0 then none
  else
    let value :=
      if str.head? = some 45 then
        if str.length = 1 then none else (parseDigits 0 str.tail).map (-·)
      else parseDigits 0 str
    value.filter fun value => decide (-2147483648 ≤ value ∧ value ≤ 2147483647)

/-- The name of a child: a key, or one of the two strings that are known by their address. -/
inductive Name
  | minName
  | maxName
  | key (s : String)
  deriving DecidableEq

def Name.string : Name → String
  | .minName => "[MIN_NAME]"
  | .maxName => "[MAX_NAME]"
  | .key s => s

/-- The comparison of two keys, by their code units. -/
def compareUnichars (a b : List ℕ) : Ordering :=
  match tryParseStringToInt a, tryParseStringToInt b with
  | some aAsInt, some bAsInt =>
    if aAsInt > bAsInt then .gt
    else if aAsInt < bAsInt then .lt
    else if a.length > b.length then .gt
    else if a.length < b.length then .lt
    else .eq
  | some _, none => .lt
  | none, some _ => .gt
  | none, none => compareOfLessAndEq a b

/-- `[FUtilities compareKey:toKey:]` -/
def compareKey (a b : Name) : Ordering :=
  if a = b then .eq
  else if a = .minName ∨ b = .maxName then .lt
  else if b = .minName ∨ a = .maxName then .gt
  else compareUnichars (unichars a.string) (unichars b.string)

/-! ## The order of ranks -/

/-- What decides about a name: its kind, the number with its length, and the code units. -/
abbrev Rank := ℕ ×ₗ ℤ ×ₗ ℕ ×ₗ List ℕ

/-- The rank of a key with the code units `str`. -/
def strRank (str : List ℕ) : Rank :=
  match tryParseStringToInt str with
  | some n => toLex (1, toLex (n, toLex (str.length, [])))
  | none => toLex (2, toLex (0, toLex (0, str)))

def Name.rank : Name → Rank
  | .minName => toLex (0, toLex (0, toLex (0, [])))
  | .maxName => toLex (3, toLex (0, toLex (0, [])))
  | .key s => strRank (unichars s)

/-- The comparison `o` is that of two ranks. -/
inductive Compares (r r' : Rank) : Ordering → Prop
  | lt (h : r < r') : Compares r r' .lt
  | eq (h : r = r') : Compares r r' .eq
  | gt (h : r' < r) : Compares r r' .gt

theorem strRank_some {str : List ℕ} {n : ℤ} (h : tryParseStringToInt str = some n) :
    strRank str = toLex (1, toLex (n, toLex (str.length, []))) := by
  simp [strRank, h]

theorem strRank_none {str : List ℕ} (h : tryParseStringToInt str = none) :
    strRank str = toLex (2, toLex (0, toLex (0, str))) := by
  simp [strRank, h]

theorem minName_lt (s : String) : Name.minName.rank < (Name.key s).rank := by
  change _ < strRank (unichars s)
  unfold strRank
  cases tryParseStringToInt (unichars s) with
  | some n => exact Prod.Lex.toLex_lt_toLex.2 (.inl (by simp))
  | none => exact Prod.Lex.toLex_lt_toLex.2 (.inl (by simp))

theorem lt_maxName (s : String) : (Name.key s).rank < Name.maxName.rank := by
  change strRank (unichars s) < _
  unfold strRank
  cases tryParseStringToInt (unichars s) with
  | some n => exact Prod.Lex.toLex_lt_toLex.2 (.inl (by simp))
  | none => exact Prod.Lex.toLex_lt_toLex.2 (.inl (by simp))

theorem compares_unichars (a b : List ℕ) :
    Compares (strRank a) (strRank b) (compareUnichars a b) := by
  unfold compareUnichars
  cases ha : tryParseStringToInt a with
  | none =>
    rw [strRank_none ha]
    cases hb : tryParseStringToInt b with
    | none =>
      rw [strRank_none hb]
      simp only [compareOfLessAndEq]
      split_ifs with hlt heq
      · exact .lt (by simpa [Prod.Lex.toLex_lt_toLex] using hlt)
      · exact .eq (by rw [heq])
      · have hgt := lt_of_le_of_ne (not_lt.1 hlt) (Ne.symm heq)
        exact .gt (by simpa [Prod.Lex.toLex_lt_toLex] using hgt)
    | some m =>
      rw [strRank_some hb]
      exact .gt (by simp [Prod.Lex.toLex_lt_toLex])
  | some n =>
    rw [strRank_some ha]
    cases hb : tryParseStringToInt b with
    | none =>
      rw [strRank_none hb]
      exact .lt (by simp [Prod.Lex.toLex_lt_toLex])
    | some m =>
      rw [strRank_some hb]
      simp only
      split_ifs with hgt hlt hlong hshort
      · exact .gt (by simp [Prod.Lex.toLex_lt_toLex, hgt])
      · exact .lt (by simp [Prod.Lex.toLex_lt_toLex, hlt])
      all_goals obtain rfl : n = m := by omega
      · exact .gt (by simp [Prod.Lex.toLex_lt_toLex, hlong])
      · exact .lt (by simp [Prod.Lex.toLex_lt_toLex, hshort])
      · exact .eq (by rw [show a.length = b.length by omega])

theorem compareKey_key (s t : String) :
    compareKey (.key s) (.key t) =
      if s = t then .eq else compareUnichars (unichars s) (unichars t) := by
  simp [compareKey, Name.string]

/-- The comparison is that of the ranks. -/
theorem compares (a b : Name) : Compares a.rank b.rank (compareKey a b) := by
  cases a with
  | minName =>
    cases b with
    | minName => exact .eq rfl
    | maxName => exact .lt (by decide)
    | key t => exact .lt (minName_lt t)
  | maxName =>
    cases b with
    | minName => exact .gt (by decide)
    | maxName => exact .eq rfl
    | key t => exact .gt (lt_maxName t)
  | key s =>
    cases b with
    | minName => exact .gt (minName_lt s)
    | maxName => exact .lt (lt_maxName s)
    | key t =>
      rw [compareKey_key]
      split
      · next hst => exact .eq (by rw [hst])
      · exact compares_unichars _ _

namespace Compares

variable {r r' : Rank} {o o' : Ordering}

theorem lt_iff (h : Compares r r' o) : o = .lt ↔ r < r' := by
  cases h with
  | lt h => simp [h]
  | eq h => simp [h]
  | gt h => simp [le_of_lt h]

theorem eq_iff (h : Compares r r' o) : o = .eq ↔ r = r' := by
  cases h with
  | lt h => simp [ne_of_lt h]
  | eq h => simp [h]
  | gt h => simp [ne_of_gt h]

theorem ne_gt_iff (h : Compares r r' o) : o ≠ .gt ↔ r ≤ r' := by
  cases h with
  | lt h => simp [le_of_lt h]
  | eq h => simp [h]
  | gt h => simp [h]

theorem swap (h : Compares r r' o) : Compares r' r o.swap := by
  cases h with
  | lt h => exact .gt h
  | eq h => exact .eq h.symm
  | gt h => exact .lt h

theorem unique (h : Compares r r' o) (h' : Compares r r' o') : o = o' := by
  cases h with
  | lt h => exact (h'.lt_iff.2 h).symm
  | eq h => exact (h'.eq_iff.2 h).symm
  | gt h => exact Ordering.swap_inj.1 (h'.swap.lt_iff.2 h).symm

end Compares

/-- The key `a` is not listed behind `b`. -/
def Precedes (a b : String) : Prop := compareKey (.key a) (.key b) ≠ .gt

instance : DecidableRel Precedes := fun a b =>
  inferInstanceAs (Decidable (compareKey (.key a) (.key b) ≠ .gt))

theorem precedes_iff {a b : String} : Precedes a b ↔ (Name.key a).rank ≤ (Name.key b).rank :=
  (compares _ _).ne_gt_iff

instance : Std.Total Precedes where
  total a b := by
    rw [precedes_iff, precedes_iff]
    exact le_total _ _

instance : IsTrans String Precedes where
  trans a b c hab hbc := by
    rw [precedes_iff] at *
    exact hab.trans hbc

/-- Strings of more than eleven characters are no numbers. -/
theorem compareKey_of_length {s t : String} (hs : 11 < (unichars s).length)
    (ht : 11 < (unichars t).length) :
    compareKey (.key s) (.key t) = .lt ↔ unichars s < unichars t := by
  have hparse : ∀ str : List ℕ, 11 < str.length → tryParseStringToInt str = none := by
    intro str hstr
    simp [tryParseStringToInt, hstr]
  rw [(compares _ _).lt_iff, Name.rank, Name.rank, strRank_none (hparse _ hs),
    strRank_none (hparse _ ht)]
  simp [Prod.Lex.toLex_lt_toLex]

/-! ## Which keys are taken for one -/

/-- The code unit of a decimal digit. -/
def digitUnit (d : Fin 10) : ℕ := 48 + d

theorem parseDigits_eq_some {value n : ℤ} {str : List ℕ} (h : parseDigits value str = some n) :
    ∃ ds, str = ds.map digitUnit ∧ n = value * 10 ^ ds.length + Digits.value ds := by
  induction str generalizing value with
  | nil =>
    cases h
    exact ⟨[], rfl, by simp⟩
  | cons c str ih =>
    simp only [parseDigits] at h
    split at h
    · cases h
    · next hc =>
      obtain ⟨ds, rfl, rfl⟩ := ih h
      have hlt : c - 48 < 10 := by omega
      refine ⟨⟨c - 48, hlt⟩ :: ds, ?_, ?_⟩
      · rw [List.map_cons, digitUnit]
        congr 1
        simp only
        omega
      · rw [Digits.value_cons, List.length_cons, pow_succ]
        push_cast
        ring

/-- What parses to a number: digits, or a sign and digits. -/
theorem tryParseStringToInt_eq_some {str : List ℕ} {n : ℤ} (h : tryParseStringToInt str = some n) :
    str.length ≤ 11 ∧ ∃ ds : List (Fin 10), ds ≠ [] ∧
      (str = ds.map digitUnit ∧ n = Digits.value ds ∨
        str = 45 :: ds.map digitUnit ∧ n = -Digits.value ds) := by
  unfold tryParseStringToInt at h
  split at h
  · cases h
  next hlen =>
  simp only [Option.filter_eq_some_iff] at h
  obtain ⟨h, -⟩ := h
  refine ⟨by omega, ?_⟩
  split at h
  · next hsign =>
    split at h
    · cases h
    next hone =>
    obtain ⟨m, hm, rfl⟩ := Option.map_eq_some_iff.1 h
    obtain ⟨ds, hds, rfl⟩ := parseDigits_eq_some hm
    obtain ⟨c, str, rfl⟩ := List.exists_cons_of_ne_nil (l := str) (by rintro rfl; simp at hlen)
    obtain rfl : c = 45 := by simpa using hsign
    rw [List.tail_cons] at hds
    subst hds
    refine ⟨ds, ?_, .inr ⟨rfl, by simp⟩⟩
    rintro rfl
    simp at hone
  · obtain ⟨ds, rfl, rfl⟩ := parseDigits_eq_some h
    refine ⟨ds, ?_, .inl ⟨rfl, by simp⟩⟩
    rintro rfl
    simp at hlen

/-- Different characters differ in their code units. -/
theorem charUnits_append_inj {c d : Char} {xs ys : List ℕ}
    (h : charUnits c ++ xs = charUnits d ++ ys) : c = d ∧ xs = ys := by
  have hc : c.toNat < 0xD800 ∨ 0xDFFF < c.toNat ∧ c.toNat < 0x110000 := c.valid
  have hd : d.toNat < 0xD800 ∨ 0xDFFF < d.toNat ∧ d.toNat < 0x110000 := d.valid
  unfold charUnits at h
  split at h <;> split at h
  · obtain ⟨hcd, hxs⟩ := List.cons.inj h
    exact ⟨Char.toNat_inj.1 hcd, hxs⟩
  · -- a high surrogate is no character
    obtain ⟨hcd, -⟩ := List.cons.inj h
    omega
  · obtain ⟨hcd, -⟩ := List.cons.inj h
    omega
  · obtain ⟨hhigh, h⟩ := List.cons.inj h
    obtain ⟨hlow, hxs⟩ := List.cons.inj h
    exact ⟨Char.toNat_inj.1 (by omega), hxs⟩

theorem charUnits_ne_nil (c : Char) : charUnits c ≠ [] := by
  unfold charUnits
  split <;> simp

theorem unichars_injective : Function.Injective unichars := by
  intro s t h
  unfold unichars at h
  refine String.toList_injective ?_
  generalize s.toList = cs at h
  generalize t.toList = ds at h
  induction cs generalizing ds with
  | nil =>
    cases ds with
    | nil => rfl
    | cons d ds => simp [charUnits_ne_nil] at h
  | cons c cs ih =>
    cases ds with
    | nil => simp [charUnits_ne_nil] at h
    | cons d ds =>
      obtain ⟨rfl, hrest⟩ := charUnits_append_inj h
      rw [ih ds hrest]

/-- The two keys are zeros, and one of them has a sign in place of a digit. -/
def SignedZeros (a b : Name) : Prop :=
  ∃ n ≤ 9, a = .key (.ofList ('-' :: List.replicate (n + 1) '0')) ∧
    b = .key (.ofList (List.replicate (n + 2) '0'))

theorem value_zeros (n : ℕ) : Digits.value (List.replicate n (0 : Fin 10)) = 0 := by
  induction n with
  | zero => rfl
  | succ n ih => simp [List.replicate_succ, ih]

theorem unichars_cons (c : Char) (cs : List Char) :
    unichars (.ofList (c :: cs)) = charUnits c ++ unichars (.ofList cs) := by
  simp [unichars]

theorem unichars_zeros (n : ℕ) :
    unichars (.ofList (List.replicate n '0')) = (List.replicate n (0 : Fin 10)).map digitUnit := by
  induction n with
  | zero => rfl
  | succ n ih =>
    rw [List.replicate_succ, unichars_cons, ih]
    rfl

/-- Digits whose number is that of a signed string of the same length are zeros. -/
theorem signedZeros_of_value {s t : String} {ds es : List (Fin 10)} (hes : es ≠ [])
    (hs : unichars s = 45 :: es.map digitUnit) (ht : unichars t = ds.map digitUnit)
    (hlen : (unichars s).length = (unichars t).length) (hmax : (unichars t).length ≤ 11)
    (hvalue : (Digits.value ds : ℤ) = -Digits.value es) : SignedZeros (.key s) (.key t) := by
  have hzeros : ∀ ds : List (Fin 10), Digits.value ds = 0 → ds = List.replicate ds.length 0 :=
    fun ds hds => Digits.value_inj (by decide) (by simp) (by rw [hds, value_zeros])
  have hdszero := hzeros ds (by omega)
  have heszero := hzeros es (by omega)
  rw [hs, ht] at hlen
  rw [ht] at hmax
  simp only [List.length_cons, List.length_map] at hlen hmax
  obtain ⟨n, hn⟩ : ∃ n, es.length = n + 1 :=
    Nat.exists_eq_succ_of_ne_zero (by simpa using hes)
  rw [hn] at heszero
  rw [show ds.length = n + 2 by omega] at hdszero
  refine ⟨n, by omega, ?_, ?_⟩
  · refine congrArg Name.key (unichars_injective ?_)
    rw [hs, heszero, ← unichars_zeros, unichars_cons]
    rfl
  · refine congrArg Name.key (unichars_injective ?_)
    rw [ht, hdszero, unichars_zeros]

theorem compareKey_signedZeros {a b : Name} (h : SignedZeros a b) : compareKey a b = .eq := by
  obtain ⟨n, hn, rfl, rfl⟩ := h
  interval_cases n <;> decide

/-- Two strings that parse to one number and have one length are the same, or zeros. -/
theorem eq_or_signedZeros_of_parse {s t : String} {n : ℤ}
    (hparse : tryParseStringToInt (unichars s) = some n)
    (hparse' : tryParseStringToInt (unichars t) = some n)
    (hlen : (unichars s).length = (unichars t).length) :
    s = t ∨ SignedZeros (.key s) (.key t) ∨ SignedZeros (.key t) (.key s) := by
  obtain ⟨hmax, ds, hds, hs⟩ := tryParseStringToInt_eq_some hparse
  obtain ⟨hmax', es, hes, ht⟩ := tryParseStringToInt_eq_some hparse'
  have hsame : ds.length = es.length → Digits.value ds = Digits.value es → ds = es :=
    Digits.value_inj (by decide)
  rcases hs with ⟨hs, rfl⟩ | ⟨hs, rfl⟩ <;> rcases ht with ⟨ht, hn⟩ | ⟨ht, hn⟩
  · rw [hs, ht, List.length_map, List.length_map] at hlen
    obtain rfl := hsame hlen (by omega)
    exact .inl (unichars_injective (hs.trans ht.symm))
  · exact .inr (.inr (signedZeros_of_value hes ht hs hlen.symm hmax hn))
  · exact .inr (.inl (signedZeros_of_value hds hs ht hlen hmax' (by omega)))
  · rw [hs, ht, List.length_cons, List.length_cons, List.length_map, List.length_map] at hlen
    obtain rfl := hsame (by omega) (by omega)
    exact .inl (unichars_injective (hs.trans ht.symm))

/-- Two names of one rank are the same, or zeros. -/
theorem eq_or_signedZeros {a b : Name} (h : a.rank = b.rank) :
    a = b ∨ SignedZeros a b ∨ SignedZeros b a := by
  cases a with
  | minName =>
    cases b with
    | minName => exact .inl rfl
    | maxName => exact absurd h (by decide)
    | key t => exact absurd h (ne_of_lt (minName_lt t))
  | maxName =>
    cases b with
    | minName => exact absurd h (by decide)
    | maxName => exact .inl rfl
    | key t => exact absurd h (ne_of_gt (lt_maxName t))
  | key s =>
    cases b with
    | minName => exact absurd h (ne_of_gt (minName_lt s))
    | maxName => exact absurd h (ne_of_lt (lt_maxName s))
    | key t =>
      change strRank (unichars s) = strRank (unichars t) at h
      cases hs : tryParseStringToInt (unichars s) with
      | none =>
        rw [strRank_none hs] at h
        cases ht : tryParseStringToInt (unichars t) with
        | none =>
          rw [strRank_none ht] at h
          simp only [toLex_inj, Prod.mk.injEq, true_and] at h
          exact .inl (congrArg Name.key (unichars_injective h))
        | some m =>
          rw [strRank_some ht] at h
          simp at h
      | some n =>
        rw [strRank_some hs] at h
        cases ht : tryParseStringToInt (unichars t) with
        | none =>
          rw [strRank_none ht] at h
          simp at h
        | some m =>
          rw [strRank_some ht] at h
          simp only [toLex_inj, Prod.mk.injEq, true_and, and_true] at h
          obtain ⟨rfl, hlen⟩ := h
          exact (eq_or_signedZeros_of_parse hs ht hlen).imp_left (congrArg Name.key)

/-- The comparison is antisymmetric and transitive, and tells all keys apart but zeros. -/
theorem compareKey_laws :
    (∀ a b, compareKey b a = (compareKey a b).swap) ∧
      (∀ a b c, compareKey a b ≠ .gt → compareKey b c ≠ .gt → compareKey a c ≠ .gt) ∧
      ∀ a b, compareKey a b = .eq ↔ a = b ∨ SignedZeros a b ∨ SignedZeros b a := by
  refine ⟨fun a b => (compares b a).unique (compares a b).swap, fun a b c hab hbc => ?_,
    fun a b => ⟨fun h => eq_or_signedZeros ((compares a b).eq_iff.1 h), ?_⟩⟩
  · rw [(compares _ _).ne_gt_iff] at *
    exact hab.trans hbc
  · rintro (rfl | h | h)
    · simp [compareKey]
    · exact compareKey_signedZeros h
    · rw [(compares a b).unique (compares b a).swap, compareKey_signedZeros h]
      rfl

end FLChat.Keys
