import Mathlib.Data.List.TakeWhile
import QualityGate.Text.Reader

/-! What the readers do on a text of which they understand the beginning. Each law says what is
read and what is left; `run_bind` joins them along a reader that is a sequence of others. -/
namespace QualityGate.Text.Reader

variable {α β σ : Type} {cs rest : List Char}

theorem run_pure (a : α) (cs : List Char) : (pure a : Reader α) cs = some (a, cs) := rfl

/-- A sequence goes on behind what its first reader took. -/
theorem run_bind {r : Reader α} {f : α → Reader β} {a : α} (h : r cs = some (a, rest)) :
    (r >>= f) cs = f a rest := by
  show (r cs).bind _ = _
  rw [h]
  rfl

theorem run_bind_none {r : Reader α} {f : α → Reader β} (h : r cs = none) :
    (r >>= f) cs = none := by
  show (r cs).bind _ = _
  rw [h]
  rfl

theorem run_get (cs : List Char) : (get : Reader (List Char)) cs = some (cs, cs) := rfl

theorem optional_none {r : Reader α} (h : r cs = none) : optional r cs = some (none, cs) := by
  show (((r >>= fun a => pure (some a)) cs).orElse fun _ => some (none, cs)) = _
  rw [run_bind_none h]
  rfl

theorem any_cons (c : Char) (cs : List Char) : any (c :: cs) = some (c, cs) := rfl

theorem satisfying_of_head {p : Char → Bool} (h : ∀ c ∈ cs.head?, p c = false) :
    satisfying p cs = none := by
  unfold satisfying
  cases cs with
  | nil => rfl
  | cons c cs =>
    rw [run_bind (any_cons c cs), if_neg (by simp [h c rfl])]
    rfl

/-! ### Given texts -/

theorem accept_append (p rest : List Char) : accept p (p ++ rest) = some (true, rest) := by
  unfold accept
  rw [if_pos (List.isPrefixOf_iff_prefix.mpr (List.prefix_append p rest)), List.drop_left]

theorem accept_cons (c : Char) (rest : List Char) : accept [c] (c :: rest) = some (true, rest) :=
  accept_append [c] rest

/-- A text that starts with another character is not taken. -/
theorem accept_of_head {c : Char} {p : List Char} (h : ∀ d ∈ cs.head?, d ≠ c) :
    accept (c :: p) cs = some (false, cs) := by
  unfold accept
  cases cs with
  | nil => rfl
  | cons d cs =>
    have hdc : c ≠ d := fun heq => h d rfl heq.symm
    rw [if_neg (by simp [List.isPrefixOf, hdc])]

theorem expect_cons (c : Char) (rest : List Char) : expect [c] (c :: rest) = some ((), rest) := by
  have hprefix : [c].isPrefixOf (c :: rest) :=
    List.isPrefixOf_iff_prefix.mpr (List.prefix_append [c] rest)
  unfold expect
  rw [if_pos hprefix]
  rfl

theorem expect_of_head {c : Char} {p : List Char} (h : ∀ d ∈ cs.head?, d ≠ c) :
    expect (c :: p) cs = none := by
  unfold expect
  cases cs with
  | nil => rfl
  | cons d cs =>
    have hdc : c ≠ d := fun heq => h d rfl heq.symm
    rw [if_neg (by simp [List.isPrefixOf, hdc])]

/-! ### Runs of characters -/

theorem takeWhile_append {p : Char → Bool} (hcs : ∀ c ∈ cs, p c)
    (hrest : ∀ c ∈ rest.head?, p c = false) :
    takeWhile p (cs ++ rest) = some (cs, rest) := by
  have htake : rest.takeWhile p = [] := by
    cases rest with
    | nil => rfl
    | cons c rest => simp [hrest c rfl]
  have hdrop : rest.dropWhile p = rest := by
    cases rest with
    | nil => rfl
    | cons c rest => simp [hrest c rfl]
  unfold takeWhile
  rw [List.takeWhile_append_of_pos hcs, List.dropWhile_append_of_pos hcs, htake, hdrop,
    List.append_nil]

theorem takeWhile1_append {p : Char → Bool} (hcs : ∀ c ∈ cs, p c) (hne : cs ≠ [])
    (hrest : ∀ c ∈ rest.head?, p c = false) :
    takeWhile1 p (cs ++ rest) = some (cs, rest) := by
  unfold takeWhile1
  rw [run_bind (takeWhile_append hcs hrest), if_neg (by simpa using hne)]
  rfl

theorem count_append {p : Char → Bool} (hcs : ∀ c ∈ cs, p c) :
    count p cs.length (cs ++ rest) = some (cs, rest) := by
  induction cs with
  | nil => rfl
  | cons c cs ih =>
    have hc : satisfying p (c :: (cs ++ rest)) = some (c, cs ++ rest) := by
      unfold satisfying
      rw [run_bind (any_cons _ _), if_pos (hcs c List.mem_cons_self)]
      rfl
    rw [List.length_cons, count, List.cons_append, run_bind hc,
      run_bind (ih fun d hd => hcs d (List.mem_cons_of_mem _ hd))]
    rfl

/-! ### Repetition -/

theorem iterate_inr {step : σ → Reader (σ ⊕ α)} {s : σ} {a : α} (fuel : List Char)
    (h : step s cs = some (.inr a, rest)) : iterate step fuel s cs = some (a, rest) := by
  cases fuel with
  | nil => rw [iterate, run_bind h]; rfl
  | cons c fuel => rw [iterate, run_bind h]; rfl

theorem iterate_inl {step : σ → Reader (σ ⊕ α)} {s s' : σ} (c : Char) (fuel : List Char)
    (h : step s cs = some (.inl s', rest)) :
    iterate step (c :: fuel) s cs = iterate step fuel s' rest := by
  rw [iterate, run_bind h]

/-- Items with separators between them and a closing text behind the last one are taken one by
one. -/
theorem iterate_separated {ι : Type} {step : List ι → Reader (List ι ⊕ α)} {text : ι → List Char}
    {separator close : List Char} {P : ι → Prop} (result : List ι → α)
    (hnext : ∀ read x y rest, P x → P y → step read (text x ++ (separator ++ (text y ++ rest))) =
      some (.inl (x :: read), text y ++ rest))
    (hlast : ∀ read x, P x → step read (text x ++ (close ++ rest)) =
      some (.inr (result (x :: read)), rest))
    {x : ι} {xs : List ι} (hx : P x) (hxs : ∀ y ∈ xs, P y) (read : List ι) (fuel : List Char)
    (hfuel : xs.length ≤ fuel.length) :
    iterate step fuel read
      (text x ++ (xs.flatMap (fun y => separator ++ text y) ++ (close ++ rest))) =
        some (result ((x :: xs).reverse ++ read), rest) := by
  induction xs generalizing x read fuel with
  | nil => exact iterate_inr fuel (hlast read x hx)
  | cons y xs ih =>
    cases fuel with
    | nil => simp at hfuel
    | cons c fuel =>
      have hy : P y := hxs y List.mem_cons_self
      have hstep := hnext read x y (xs.flatMap (fun y => separator ++ text y) ++ (close ++ rest))
        hx hy
      have hrest := ih hy (fun z hz => hxs z (List.mem_cons_of_mem _ hz)) (x :: read) fuel
        (by simpa using hfuel)
      rw [List.flatMap_cons, List.append_assoc, List.append_assoc, iterate_inl c fuel hstep, hrest]
      simp

/-- Texts that are not empty give repetition a character for each of them. -/
theorem length_le_flatMap {ι : Type} {text : ι → List Char} (h : ∀ x, text x ≠ [])
    (xs : List ι) : xs.length ≤ (xs.flatMap text).length := by
  induction xs with
  | nil => simp
  | cons x xs ih =>
    have hx := List.length_pos_iff.mpr (h x)
    rw [List.flatMap_cons, List.length_append, List.length_cons]
    omega

end QualityGate.Text.Reader
