import FLChat.Keys.CompareKey

/-!
# The ids that `childByAutoId` draws

`FNextPushId` keeps the time of its last call and twelve random digits. An id is eight digits of the
time and the twelve; within one millisecond the twelve are counted up, with the carry of a number in
base 64, so that the statics are a counter (`get_counter`). A carry out of the first digit writes in
front of the array: that is `none`.

`compareKey` is the order in which the database keeps the children of a node. Over ids it is the
order of the counters (`compareKey_id`).
-/

namespace FLChat.Keys

def PUSH_CHARS : List Char :=
  "-0123456789ABCDEFGHIJKLMNOPQRSTUVWXYZ_abcdefghijklmnopqrstuvwxyz".toList

theorem length_PUSH_CHARS : PUSH_CHARS.length = 64 := by decide

theorem pairwise_PUSH_CHARS : PUSH_CHARS.Pairwise fun c d => c.toNat < d.toNat := by decide

theorem toNat_PUSH_CHARS : ∀ c ∈ PUSH_CHARS, c.toNat < 0x10000 := by
  have h : PUSH_CHARS.all (fun c => decide (c.toNat < 0x10000)) = true := by decide
  exact fun c hc => of_decide_eq_true (List.all_eq_true.1 h c hc)

/-- `[PUSH_CHARS characterAtIndex:d]` -/
def characterAtIndex (d : Fin 64) : Char := PUSH_CHARS.get (d.cast length_PUSH_CHARS.symm)

/-- The digits of the time, written from place `i` down in front of `chars`. -/
def timeStampChars : (i now : ℕ) → List (Fin 64) → List (Fin 64)
  | 0, _, chars => chars
  | i + 1, now, chars => timeStampChars i (now / 64) (Fin.ofNat 64 (now % 64) :: chars)

/-- `lastPushTime` and `lastRandChars` -/
structure Statics where
  lastPushTime : ℕ
  lastRandChars : Vector (Fin 64) 12
  deriving DecidableEq

/-- The statics of a process that starts. -/
def Statics.initial : Statics := ⟨0, .replicate 12 0⟩

/-- The digits of twelve results of `arc4random`. -/
def randChars (rand : Vector ℕ 12) : Vector (Fin 64) 12 :=
  .ofFn fun i => Fin.ofNat 64 (rand[i] % 64)

/-- The loop over the digits that are 63, from the last place down, and the increment behind it. -/
def carry : (i : ℕ) → i ≤ 12 → Vector (Fin 64) 12 → Option (Vector (Fin 64) 12)
  | 0, _, _ => none
  | i + 1, h, lastRandChars =>
    if lastRandChars[i] = 63 then carry i (Nat.le_of_succ_le h) (lastRandChars.set i 0)
    else some (lastRandChars.set i (lastRandChars[i] + 1))

/-- The string of an id. -/
def stringWithDigits (digits : List (Fin 64)) : String := .ofList (digits.map characterAtIndex)

/-- `[FNextPushId get:]` at `now` in milliseconds, where `arc4random` gives `rand`. -/
def get (now : ℕ) (rand : Vector ℕ 12) (st : Statics) : Option (String × Statics) :=
  let duplicateTime := decide (now = st.lastPushTime)
  let timeStamp := timeStampChars 8 now []
  let chars :=
    if !duplicateTime then some (randChars rand)
    else carry 12 (Nat.le_refl 12) st.lastRandChars
  chars.map fun lastRandChars =>
    (stringWithDigits (timeStamp ++ lastRandChars.toList), ⟨now, lastRandChars⟩)

/-- A call of `get`: the time, and what `arc4random` gives in it. -/
abbrev Call := ℕ × Vector ℕ 12

/-! ## The statics are a counter -/

/-- A number for each millisecond. -/
structure Counter where
  time : ℕ
  count : ℕ

/-- The next number of the same millisecond, if there is one left, and `rand` in a new one. -/
def Counter.next (now rand : ℕ) (c : Counter) : Option Counter :=
  if now = c.time then if c.count + 1 < 64 ^ 12 then some ⟨now, c.count + 1⟩ else none
  else some ⟨now, rand⟩

def Counter.Before (c c' : Counter) : Prop :=
  c.time < c'.time ∨ c.time = c'.time ∧ c.count < c'.count

theorem Counter.Before.trans {c₁ c₂ c₃ : Counter} (h : c₁.Before c₂) (h' : c₂.Before c₃) :
    c₁.Before c₃ := by
  simp only [Before] at *
  omega

/-- Where the clock does not go back, every call is behind the one before it. -/
theorem Counter.before_next {now rand : ℕ} {c c' : Counter} (h : c.next now rand = some c')
    (hclock : c.time ≤ now) : c.Before c' := by
  unfold Counter.next at h
  split at h
  · next htime =>
    split at h
    · cases h
      exact .inr ⟨htime.symm, Nat.lt_succ_self _⟩
    · cases h
  · next htime =>
    cases h
    exact .inl (Nat.lt_of_le_of_ne hclock (Ne.symm htime))

theorem Counter.next_time {now rand : ℕ} {c c' : Counter} (h : c.next now rand = some c') :
    c'.time = now := by
  unfold Counter.next at h
  split at h
  · split at h
    · cases h
      rfl
    · cases h
  · cases h
    rfl

def randValue (chars : Vector (Fin 64) 12) : ℕ := Digits.value chars.toList

def Statics.counter (st : Statics) : Counter := ⟨st.lastPushTime, randValue st.lastRandChars⟩

theorem randValue_lt (chars : Vector (Fin 64) 12) : randValue chars < 64 ^ 12 := by
  have h := Digits.value_lt chars.toList
  rwa [Vector.length_toList] at h

theorem randValue_set (chars : Vector (Fin 64) 12) {i : ℕ} (h : i < 12) (d : Fin 64) :
    randValue (chars.set i d) + chars[i] * 64 ^ (11 - i) = randValue chars + d * 64 ^ (11 - i) := by
  have hi : i < chars.toList.length := by rwa [Vector.length_toList]
  have hset := Digits.value_set hi d
  rw [Vector.getElem_toList, Vector.length_toList] at hset
  rw [randValue, Vector.toList_set]
  exact hset

/-- The carry from place `i` adds the weight of the place before it. -/
theorem carry_eq_some {i : ℕ} {h : i ≤ 12} {chars chars' : Vector (Fin 64) 12}
    (hc : carry i h chars = some chars') : randValue chars' = randValue chars + 64 ^ (12 - i) := by
  induction i generalizing chars with
  | zero => cases hc
  | succ i ih =>
    have hi : i < 12 := h
    have hplace : 12 - (i + 1) = 11 - i := by omega
    rw [hplace]
    simp only [carry] at hc
    split at hc
    · next h63 =>
      have hset := randValue_set chars hi 0
      have hpow : 64 ^ (12 - i) = 64 * 64 ^ (11 - i) := by
        rw [← pow_succ']
        congr 1
        omega
      have h63' : (chars[i] : ℕ) = 63 := by rw [h63]; rfl
      have := ih hc
      rw [h63'] at hset
      simp only [Fin.val_zero] at hset
      omega
    · next h63 =>
      have hset := randValue_set chars hi (chars[i] + 1)
      have hadd : ((chars[i] + 1 : Fin 64) : ℕ) = chars[i] + 1 := by
        have : (chars[i] : ℕ) ≠ 63 := fun h => h63 (Fin.ext h)
        rw [Fin.val_add_one_of_lt' (by omega)]
      rw [hadd, Nat.add_mul, Nat.one_mul] at hset
      cases hc
      omega

theorem carry_eq_none {i : ℕ} {h : i ≤ 12} {chars : Vector (Fin 64) 12} :
    carry i h chars = none ↔ ∀ j, (hj : j < i) → chars[j] = 63 := by
  induction i generalizing chars with
  | zero => simp [carry]
  | succ i ih =>
    have hi : i < 12 := h
    simp only [carry]
    split
    · next h63 =>
      rw [ih]
      constructor
      · intro hall j hj
        by_cases hji : j = i
        · subst hji
          exact h63
        · have := hall j (by omega)
          rwa [Vector.getElem_set_ne _ _ (Ne.symm hji)] at this
      · intro hall j hj
        rw [Vector.getElem_set_ne _ _ (by omega)]
        exact hall j (by omega)
    · next h63 =>
      exact ⟨fun hc => (by cases hc), fun hall => absurd (hall i (by omega)) h63⟩

/-- The carry runs out of the digits exactly at the last number. -/
theorem carry_isSome {chars : Vector (Fin 64) 12} :
    (carry 12 (Nat.le_refl 12) chars).isSome ↔ randValue chars + 1 < 64 ^ 12 := by
  cases hc : carry 12 (Nat.le_refl 12) chars with
  | some chars' =>
    have hlt := randValue_lt chars'
    rw [carry_eq_some hc] at hlt
    simpa using hlt
  | none =>
    have hall := carry_eq_none.1 hc
    have hreplicate : chars.toList = List.replicate 12 63 := by
      refine List.eq_replicate_iff.2 ⟨Vector.length_toList, fun d hd => ?_⟩
      obtain ⟨j, hj, rfl⟩ := List.mem_iff_getElem.1 hd
      rw [Vector.getElem_toList]
      exact hall j (by rwa [Vector.length_toList] at hj)
    have hvalue := Digits.value_add_one_of_replicate 12 (63 : Fin 64) rfl
    rw [randValue, hreplicate]
    simp only [Option.isSome_none, Bool.false_eq_true, false_iff, not_lt]
    omega

/-- The id that the last call drew. -/
def Statics.id (st : Statics) : String :=
  stringWithDigits (timeStampChars 8 st.lastPushTime [] ++ st.lastRandChars.toList)

theorem get_eq_some {now : ℕ} {rand : Vector ℕ 12} {st st' : Statics} {id : String}
    (h : get now rand st = some (id, st')) :
    id = st'.id ∧ st.counter.next now (randValue (randChars rand)) = some st'.counter := by
  obtain ⟨chars, hchars, heq⟩ := Option.map_eq_some_iff.1 h
  obtain ⟨rfl, rfl⟩ := Prod.ext_iff.1 heq
  refine ⟨rfl, ?_⟩
  by_cases htime : now = st.lastPushTime
  · simp only [htime, decide_true, Bool.not_true, Bool.false_eq_true, if_false] at hchars
    have hroom := carry_isSome.1 (Option.isSome_iff_exists.2 ⟨chars, hchars⟩)
    have hvalue := carry_eq_some hchars
    have hnext : st.counter.next now (randValue (randChars rand)) = some ⟨now, randValue chars⟩ := by
      rw [hvalue, Counter.next, if_pos (show now = st.counter.time from htime)]
      exact if_pos hroom
    exact hnext
  · simp only [htime, decide_false, Bool.not_false, if_true, Option.some.injEq] at hchars
    simp [Counter.next, Statics.counter, htime, hchars]

theorem get_isSome {now : ℕ} {rand : Vector ℕ 12} {st : Statics} :
    (get now rand st).isSome ↔ (st.counter.next now (randValue (randChars rand))).isSome := by
  by_cases htime : now = st.lastPushTime
  · have h : (get now rand st).isSome = (carry 12 (Nat.le_refl 12) st.lastRandChars).isSome := by
      simp [get, htime]
    rw [h, carry_isSome]
    simp [Counter.next, Statics.counter, htime]
  · simp [get, Counter.next, Statics.counter, htime]

/-- The calls are the steps of a counter. -/
theorem get_counter (now : ℕ) (rand : Vector ℕ 12) (st : Statics) :
    (get now rand st).map (·.2.counter) = st.counter.next now (randValue (randChars rand)) := by
  cases hget : get now rand st with
  | some idst => exact (get_eq_some hget).2.symm
  | none =>
    have hnone : ¬ (st.counter.next now (randValue (randChars rand))).isSome := by
      rw [← get_isSome, hget]
      simp
    exact (Option.not_isSome_iff_eq_none.1 hnone).symm

/-! ## The ids are in the order of the counters -/

theorem length_timeStampChars (i now : ℕ) (chars : List (Fin 64)) :
    (timeStampChars i now chars).length = i + chars.length := by
  induction i generalizing now chars with
  | zero => simp [timeStampChars]
  | succ i ih =>
    rw [timeStampChars, ih, List.length_cons]
    omega

theorem value_timeStampChars (i now : ℕ) (chars : List (Fin 64)) :
    Digits.value (timeStampChars i now chars)
      = now % 64 ^ i * 64 ^ chars.length + Digits.value chars := by
  induction i generalizing now chars with
  | zero => simp [timeStampChars, Nat.mod_one]
  | succ i ih =>
    rw [timeStampChars, ih, Digits.value_cons, List.length_cons, pow_succ' 64 i, Nat.mod_mul,
      Fin.val_ofNat, Nat.mod_mod]
    ring

theorem strictMono_characterAtIndex : StrictMono fun d => (characterAtIndex d).toNat :=
  fun _ _ h => List.pairwise_iff_getElem.1 pairwise_PUSH_CHARS _ _ _ _ h

theorem toNat_characterAtIndex (d : Fin 64) : (characterAtIndex d).toNat < 0x10000 :=
  toNat_PUSH_CHARS _ (List.get_mem _ _)

theorem map_lt_map {α β : Type} [LinearOrder α] [LinearOrder β] {f : α → β} (hf : StrictMono f)
    {xs ys : List α} : xs.map f < ys.map f ↔ xs < ys := by
  induction xs generalizing ys with
  | nil => cases ys <;> simp
  | cons x xs ih =>
    cases ys with
    | nil => simp
    | cons y ys =>
      simp only [List.map_cons, List.cons_lt_cons_iff, hf.lt_iff_lt, hf.injective.eq_iff, ih]

theorem unichars_stringWithDigits (digits : List (Fin 64)) :
    unichars (stringWithDigits digits) = digits.map fun d => (characterAtIndex d).toNat := by
  rw [unichars, stringWithDigits, String.toList_ofList]
  induction digits with
  | nil => rfl
  | cons d digits ih => simp [charUnits, toNat_characterAtIndex d, ih]

theorem length_id (st : Statics) : st.id.length = 20 := by
  simp [Statics.id, stringWithDigits, length_timeStampChars]

theorem compareKey_id {st st' : Statics} (h : st.lastPushTime < 64 ^ 8)
    (h' : st'.lastPushTime < 64 ^ 8) :
    compareKey (.key st.id) (.key st'.id) = .lt ↔ st.counter.Before st'.counter := by
  have hlen : ∀ st : Statics,
      (timeStampChars 8 st.lastPushTime [] ++ st.lastRandChars.toList).length = 20 := by
    intro st
    simp [length_timeStampChars]
  have hvalue : ∀ {st : Statics}, st.lastPushTime < 64 ^ 8 →
      Digits.value (timeStampChars 8 st.lastPushTime [] ++ st.lastRandChars.toList)
        = st.lastPushTime * 64 ^ 12 + st.counter.count := by
    intro st h
    rw [Digits.value_append, value_timeStampChars, Nat.mod_eq_of_lt h, Vector.length_toList]
    simp [Statics.counter, randValue]
  rw [compareKey_of_length, Statics.id, Statics.id, unichars_stringWithDigits,
    unichars_stringWithDigits, map_lt_map strictMono_characterAtIndex,
    Digits.lt_iff ((hlen st).trans (hlen st').symm), hvalue h, hvalue h']
  · exact Digits.mul_add_lt_iff (randValue_lt _) (randValue_lt _)
  all_goals
    rw [Statics.id, unichars_stringWithDigits, List.length_map, hlen]
    omega

theorem id_ne_of_before {st st' : Statics} (h : st.lastPushTime < 64 ^ 8)
    (h' : st'.lastPushTime < 64 ^ 8) (hb : st.counter.Before st'.counter) : st.id ≠ st'.id := by
  intro heq
  have hlt := (compareKey_id h h').2 hb
  rw [heq] at hlt
  simp [compareKey] at hlt

end FLChat.Keys
