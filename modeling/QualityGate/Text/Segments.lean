/-! Text cut at a separator. A text with `n` separators has `n + 1` segments,
some of them possibly empty, and joining the segments gives the text back. Paths
are cut at slashes, dotted names at dots, and lists on a command line at commas. -/
namespace QualityGate.Text

/-- The segments of a text between the occurrences of a separator. -/
def split (sep : Char) : List Char → List (List Char)
  | [] => [[]]
  | c :: cs =>
    if c = sep then [] :: split sep cs
    else match split sep cs with
      | [] => [[c]]
      | s :: ss => (c :: s) :: ss

/-- Segments written one after another with a separator text in between. -/
def join (sep : List Char) : List (List Char) → List Char
  | [] => []
  | [s] => s
  | s :: ss => s ++ sep ++ join sep ss

/-- Strings written one after another with a separator in between. -/
def joinStrings (sep : String) (ss : List String) : String :=
  String.ofList (join sep.toList (ss.map String.toList))

@[simp] theorem split_nil (sep : Char) : split sep [] = [[]] := rfl

@[simp] theorem join_nil (sep : List Char) : join sep [] = [] := rfl

@[simp] theorem join_singleton (sep s : List Char) : join sep [s] = s := rfl

theorem split_ne_nil (sep : Char) (cs : List Char) : split sep cs ≠ [] := by
  cases cs with
  | nil => simp
  | cons c cs => simp only [split]; split <;> (try split) <;> simp

theorem split_cons_sep (sep : Char) (cs : List Char) : split sep (sep :: cs) = [] :: split sep cs := by
  simp [split]

/-- In front of the first separator stands the first segment. -/
theorem headD_split (sep : Char) (cs : List Char) :
    (split sep cs).headD [] = cs.takeWhile (· ≠ sep) := by
  induction cs with
  | nil => rfl
  | cons c cs ih =>
    rw [split]
    by_cases hc : c = sep
    · rw [if_pos hc, List.takeWhile_cons_of_neg (by simpa using hc)]
      rfl
    · rw [if_neg hc, List.takeWhile_cons_of_pos (by simpa using hc), ← ih]
      cases split sep cs <;> rfl

theorem split_append_sep (sep : Char) (cs ds : List Char) :
    split sep (cs ++ sep :: ds) = split sep cs ++ split sep ds := by
  induction cs with
  | nil => exact split_cons_sep sep ds
  | cons c cs ih =>
    simp only [List.cons_append, split, ih]
    split
    · rfl
    · cases hs : split sep cs with
      | nil => exact absurd hs (split_ne_nil _ _)
      | cons s ss => rfl

/-- Joining the segments restores the text. -/
theorem join_split (sep : Char) (cs : List Char) : join [sep] (split sep cs) = cs := by
  induction cs with
  | nil => rfl
  | cons c cs ih =>
    simp only [split]
    split
    · next h =>
      subst h
      cases hs : split c cs with
      | nil => exact absurd hs (split_ne_nil _ _)
      | cons s ss => rw [hs] at ih; simp [join, ih]
    · cases hs : split sep cs with
      | nil => exact absurd hs (split_ne_nil _ _)
      | cons s ss =>
        rw [hs] at ih
        cases ss with
        | nil => simp_all [join]
        | cons t ts => simp only [join, List.cons_append] at ih ⊢; rw [ih]

/-- No segment holds the separator. -/
theorem not_mem_of_mem_split {sep : Char} {cs s : List Char} (h : s ∈ split sep cs) : sep ∉ s := by
  induction cs generalizing s with
  | nil => simp_all
  | cons c cs ih =>
    simp only [split] at h
    split at h
    · rcases List.mem_cons.1 h with rfl | h
      · simp
      · exact ih h
    · next hc =>
      cases hs : split sep cs with
      | nil => exact absurd hs (split_ne_nil _ _)
      | cons t ts =>
        rw [hs] at h ih
        rcases List.mem_cons.1 h with rfl | h
        · simp [Ne.symm hc, ih (List.mem_cons_self ..)]
        · exact ih (List.mem_cons_of_mem _ h)

/-! ### Joining -/

section Join

variable {sep : Char} {ss ts : List (List Char)} (between : List Char)

theorem join_cons (s : List Char) (h : ss ≠ []) :
    join between (s :: ss) = s ++ between ++ join between ss := by
  rw [join]
  exact h

theorem join_append (hss : ss ≠ []) (hts : ts ≠ []) :
    join between (ss ++ ts) = join between ss ++ between ++ join between ts := by
  induction ss with
  | nil => exact absurd rfl hss
  | cons s ss ih =>
    by_cases h : ss = []
    · rw [h]
      exact join_cons between s hts
    · rw [List.cons_append, join_cons between s (by simp [h]), ih h, join_cons between s h]
      simp only [List.append_assoc]

theorem join_isPrefix (h : ss <+: ts) : join between ss <+: join between ts := by
  obtain ⟨us, rfl⟩ := h
  by_cases hss : ss = []
  · rw [hss]
    exact List.nil_prefix
  · by_cases hus : us = []
    · simp [hus]
    · rw [join_append between hss hus, List.append_assoc]
      exact List.prefix_append ..

theorem join_isSuffix (h : ss <:+ ts) : join between ss <:+ join between ts := by
  obtain ⟨us, rfl⟩ := h
  by_cases hss : ss = []
  · rw [hss]
    exact List.nil_suffix
  · by_cases hus : us = []
    · simp [hus]
    · rw [join_append between hus hss]
      exact List.suffix_append ..

theorem isInfix_join {s : List Char} (h : s ∈ ss) : s <:+: join between ss := by
  obtain ⟨us, vs, rfl⟩ := List.append_of_mem h
  have hrest : s <+: join between (s :: vs) := by
    cases vs with
    | nil => exact List.prefix_rfl
    | cons v vs =>
      rw [join_cons between s (by simp), List.append_assoc]
      exact List.prefix_append ..
  exact hrest.isInfix.trans (join_isSuffix between (List.suffix_append ..)).isInfix

/-- A segment stands in the text that it was cut from. -/
theorem isInfix_of_mem_split {s cs : List Char} (h : s ∈ split sep cs) : s <:+: cs := by
  have hin := isInfix_join [sep] h
  rwa [join_split] at hin

theorem split_of_not_mem {cs : List Char} (h : sep ∉ cs) : split sep cs = [cs] := by
  induction cs with
  | nil => rfl
  | cons c cs ih =>
    have hc : c ≠ sep := fun heq => h (by simp [heq])
    rw [split, if_neg hc, ih fun hmem => h (by simp [hmem])]

/-- Cutting what was joined gives the segments back. -/
theorem split_join (hne : ss ≠ []) (h : ∀ s ∈ ss, sep ∉ s) : split sep (join [sep] ss) = ss := by
  induction ss with
  | nil => exact absurd rfl hne
  | cons s ss ih =>
    have hs := split_of_not_mem (h s (by simp))
    by_cases hss : ss = []
    · rw [hss]
      exact hs
    · rw [join_cons [sep] s hss, List.append_assoc, List.singleton_append, split_append_sep, hs,
        ih hss fun t ht => h t (by simp [ht]), List.singleton_append]

end Join

end QualityGate.Text
