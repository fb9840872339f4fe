import FLChat.Realtime.Progress

/-!
# The object store

Every upload replaces what is at its path by a new generation. Generations only grow
(`generation_step`), and in a run in which nothing fails an upload that was requested waits or has
made a new one (`uploaded_step`).
-/

namespace Realtime

variable {Loc Client Cb Blob App Action : Type} [Schema Loc] {a : Ask Loc Cb Blob} {ok : Bool}
  {objects : Path → Option (Object Blob)} {p : Path} {n : ℕ}

/-- How many uploads made what is at `p`. -/
def generation (objects : Path → Option (Object Blob)) (p : Path) : ℕ :=
  match objects p with
  | none => 0
  | some o => o.token + 1

omit [Schema Loc] in
theorem generation_putData (data : Blob) (cb : Cb) :
    generation ((Ask.putData p data cb : Ask Loc Cb Blob).store true objects) p =
      generation objects p + 1 := by
  cases h : objects p <;> simp [generation, Ask.store, h]

omit [Schema Loc] in
theorem generation_store : generation objects p ≤ generation (a.store ok objects) p := by
  cases a with
  | putData q data cb =>
    cases ok with
    | false => exact le_rfl
    | true =>
      by_cases hq : p = q
      · subst hq
        rw [generation_putData]
        exact Nat.le_succ _
      · simp [generation, Ask.store, hq]
  | childAdded | value | single | downloadURL => exact le_rfl

variable [DecidableEq Loc] [DecidableEq Client] {P : Program Loc Client Cb Blob App Action}
  {s s' : State Loc Client Cb Blob App Action} {l : Label Client Action}

theorem generation_step (hs : Transition P s l s') :
    generation s.objects p ≤ generation s'.objects p := by
  cases hs with
  | serve => exact generation_store
  | press | run | apply | reject | die => exact le_rfl

/-- An upload to `p` is requested. -/
def UploadWaits (s : State Loc Client Cb Blob App Action) (p : Path) : Prop :=
  ∃ c data cb, (c, .putData p data cb) ∈ s.asks

/-- An upload waits until it has made a new generation. -/
theorem uploaded_step (hs : Transition P s l s') (hl : l.succeeds = true)
    (hn : n ≤ generation s.objects p) (h : UploadWaits s p ∨ n < generation s.objects p) :
    UploadWaits s' p ∨ n < generation s'.objects p := by
  rcases h with ⟨c, data, cb, hask⟩ | hlt
  · cases hs with
    | press | run => exact .inl ⟨c, data, cb, List.mem_append_left _ hask⟩
    | apply | reject => exact .inl ⟨c, data, cb, hask⟩
    | @serve i c' a ok ha =>
      rcases mem_eraseIdx_or ha hask with he | hask
      · cases he
        obtain rfl : ok = true := hl
        right
        change n < generation (Ask.store (.putData p data cb : Ask Loc Cb Blob) true s.objects) p
        rw [generation_putData]
        omega
      · exact .inl ⟨c, data, cb, hask⟩
    | die => cases hl
  · exact .inr (Nat.lt_of_lt_of_le hlt (generation_step hs))

end Realtime
