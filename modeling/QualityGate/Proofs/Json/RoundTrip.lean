import Mathlib.Data.List.Basic
import QualityGate.Json.Reader
import QualityGate.Json.Value
import QualityGate.Proofs.Text.Reading
import QualityGate.Proofs.Text.Writing

/-! Reading printed values. What is printed for a value is read as that value, whatever the level
at which it stands, as long as the text behind it does not go on with a number. Values nest no
deeper than reading allows, and numbers are integers. -/
namespace QualityGate.Json

open Text (Reader)
open Text.Reader

/-! ### White space -/

theorem blanks_append {ws rest : List Char} (hws : ∀ c ∈ ws, isBlank c)
    (hrest : ∀ c ∈ rest.head?, isBlank c = false) : blanks (ws ++ rest) = some ((), rest) := by
  unfold blanks
  rw [run_bind (takeWhile_append hws hrest)]
  rfl

theorem blanks_of_head {cs : List Char} (h : ∀ c ∈ cs.head?, isBlank c = false) :
    blanks cs = some ((), cs) := by
  have hnone : ∀ c ∈ ([] : List Char), isBlank c := by simp
  exact blanks_append hnone h

theorem isBlank_of_mem_newLine (level : Nat) : ∀ c ∈ newLine level, isBlank c := by
  intro c hc
  rcases List.mem_cons.mp hc with rfl | hc
  · decide
  · rw [List.eq_of_mem_replicate hc]
    decide

/-! ### Strings -/

theorem hexValue?_hexDigit {n : Nat} (h : n < 16) : Text.hexValue? (hexDigit n) = some n := by
  have hall : ∀ n < 16, Text.hexValue? (hexDigit n) = some n := by decide
  exact hall n h

/-- The escape by code units of a control character. -/
theorem codeUnits_control {c : Char} (hc : c.toNat < 32) (rest : List Char) :
    codeUnits (['0', '0', hexDigit (c.toNat / 16), hexDigit (c.toNat % 16)] ++ rest) =
      some (c, rest) := by
  have hhigh : Text.hexValue? (hexDigit (c.toNat / 16)) = some (c.toNat / 16) :=
    hexValue?_hexDigit (by omega)
  have hlow : Text.hexValue? (hexDigit (c.toNat % 16)) = some (c.toNat % 16) :=
    hexValue?_hexDigit (by omega)
  have hdigits : ∀ d ∈ ['0', '0', hexDigit (c.toNat / 16), hexDigit (c.toNat % 16)],
      Text.isDigitBelow 16 d := by
    have hzero : Text.isDigitBelow 16 '0' := by decide
    have hsmall : c.toNat / 16 < 16 := by omega
    simp [Text.isDigitBelow, hhigh, hlow, Nat.mod_lt, hsmall] at hzero ⊢
    exact hzero
  have hcount : count (Text.isDigitBelow 16) 4
      (['0', '0', hexDigit (c.toNat / 16), hexDigit (c.toNat % 16)] ++ rest) =
        some (['0', '0', hexDigit (c.toNat / 16), hexDigit (c.toNat % 16)], rest) :=
    count_append hdigits
  have hquad : hexQuad (['0', '0', hexDigit (c.toNat / 16), hexDigit (c.toNat % 16)] ++ rest) =
      some (c.toNat, rest) := by
    have hzero : Text.hexValue? '0' = some 0 := by decide
    unfold hexQuad
    rw [run_bind hcount, run_pure]
    simp only [Text.numeral, List.foldl_cons, List.foldl_nil, hhigh, hlow, hzero, Option.getD_some]
    congr 2
    omega
  have hvalid : c.toNat.isValidChar := c.valid
  have hchar : Text.charOfCode? c.toNat = some c := by
    rw [Text.charOfCode?, if_pos hvalid, Char.ofNat_toNat]
  unfold codeUnits
  rw [run_bind hquad, if_neg (by simp; omega), run_bind (run_pure _ _)]
  dsimp only
  rw [hchar]
  rfl

/-- A printed character is read as the next one of the string. -/
theorem stringStep_escapeChar (read : List Char) (c : Char) (rest : List Char) :
    stringStep read (escapeChar c ++ rest) = some (.inl (c :: read), rest) := by
  have hescaped : ∀ p, escaped (p ++ rest) = some (c, rest) →
      stringStep read ('\\' :: p ++ rest) = some (.inl (c :: read), rest) := by
    intro p hp
    unfold stringStep
    rw [List.cons_append, run_bind (any_cons _ _)]
    show (escaped >>= _) _ = _
    rw [run_bind hp]
    rfl
  unfold escapeChar
  split_ifs with hquote hslash hfeed hreturn htab hback hform hcontrol
  iterate 7
    subst c
    exact hescaped [_] rfl
  · refine hescaped ['u', '0', '0', _, _] ?_
    unfold escaped
    rw [List.cons_append, run_bind (any_cons _ _)]
    exact codeUnits_control hcontrol rest
  · unfold stringStep
    rw [List.singleton_append, run_bind (any_cons _ _)]
    simp only [hcontrol, if_false]
    rfl

theorem iterate_stringStep (cs read rest : List Char) (fuel : List Char)
    (hfuel : cs.length ≤ fuel.length) :
    iterate stringStep fuel read (cs.flatMap escapeChar ++ '"' :: rest) =
      some (String.ofList (read.reverse ++ cs), rest) := by
  induction cs generalizing read fuel with
  | nil =>
    rw [List.append_nil]
    exact iterate_inr fuel rfl
  | cons c cs ih =>
    cases fuel with
    | nil => simp at hfuel
    | cons d fuel =>
      rw [List.flatMap_cons, List.append_assoc, iterate_inl d fuel (stringStep_escapeChar read c _),
        ih (c :: read) fuel (by simpa using hfuel)]
      simp

theorem escapeChar_ne_nil (c : Char) : escapeChar c ≠ [] := by
  unfold escapeChar
  split_ifs <;> simp

/-- A quoted text is read as that text, once its first quote is taken. -/
theorem stringBody_quote (s : String) (rest : List Char) :
    stringBody (s.toList.flatMap escapeChar ++ '"' :: rest) = some (s, rest) := by
  have hlength := length_le_flatMap escapeChar_ne_nil s.toList
  unfold stringBody loop
  rw [iterate_stringStep s.toList [] rest _ (by rw [List.length_append]; omega)]
  simp

/-! ### Numbers -/

/-- Whether a text does not go on with the number before it. -/
def EndsNumber (rest : List Char) : Prop :=
  ∀ c ∈ rest.head?, (Text.isDigit c || c = '.' || c = 'e' || c = 'E') = false

/-- Only zero is written with a zero in front. -/
theorem head_toDigits {n : Nat} (hn : n ≠ 0) : ∀ c ∈ (Nat.toDigits 10 n).head?, c ≠ '0' := by
  induction n using Nat.strongRecOn with
  | ind n ih =>
    rw [Nat.toDigits_eq_if (by decide)]
    split_ifs with hsmall
    · intro c hc
      obtain rfl := Option.mem_some_iff.mp hc
      rwa [Ne, Nat.digitChar_eq_zero]
    · have hne : Nat.toDigits 10 (n / 10) ≠ [] := Nat.toDigits_ne_nil
      rw [List.head?_append_of_ne_nil _ hne]
      exact ih (n / 10) (by omega) (by omega)

theorem wholePart_toDigits (n : Nat) {rest : List Char} (hrest : EndsNumber rest) :
    wholePart (Nat.toDigits 10 n ++ rest) = some (Nat.toDigits 10 n, rest) := by
  unfold wholePart
  by_cases hn : n = 0
  · rw [hn, Nat.toDigits_zero, List.singleton_append, run_bind (accept_cons _ _)]
    rfl
  · have hne : Nat.toDigits 10 n ≠ [] := Nat.toDigits_ne_nil
    have hhead : ∀ c ∈ (Nat.toDigits 10 n ++ rest).head?, c ≠ '0' := by
      rw [List.head?_append_of_ne_nil _ hne]
      exact head_toDigits hn
    rw [run_bind (accept_of_head hhead)]
    refine takeWhile1_append (fun c hc => Text.isDigit_of_mem_toDigits hc) hne fun c hc => ?_
    have hend := hrest c hc
    simp only [Bool.or_eq_false_iff] at hend
    exact hend.1.1.1

theorem fractionPart_none {rest : List Char} (hrest : EndsNumber rest) :
    fractionPart rest = none := by
  unfold fractionPart
  refine run_bind_none (expect_of_head fun c hc heq => ?_)
  have hend := hrest c hc
  simp [heq] at hend

theorem powerPart_none {rest : List Char} (hrest : EndsNumber rest) : powerPart rest = none := by
  unfold powerPart
  refine run_bind_none (satisfying_of_head fun c hc => ?_)
  have hend := hrest c hc
  simp only [Bool.or_eq_false_iff] at hend
  simp [hend]

/-- An integer is read as that integer. -/
theorem number_toString (n : Int) {rest : List Char} (hrest : EndsNumber rest) :
    number ((toString n).toList ++ rest) = some (.integer n, rest) := by
  have hnumber : ∀ (negative : Bool) (m : Nat) (start : List Char),
      accept ['-'] start = some (negative, Nat.toDigits 10 m ++ rest) →
      (negative && Nat.toDigits 10 m = ['0']) = false →
      number start = some (.integer (if negative then -m else m), rest) := by
    intro negative m start hstart hzero
    unfold number
    rw [run_bind (run_get _), run_bind hstart, run_bind (wholePart_toDigits m hrest),
      run_bind (optional_none (fractionPart_none hrest)),
      run_bind (optional_none (powerPart_none hrest))]
    rw [if_neg (by simpa using hzero), Text.numeral_toDigits]
    rfl
  rw [Text.toList_toString]
  split_ifs with hsign
  · have hne : n.natAbs ≠ 0 := by omega
    have hzero : Nat.toDigits 10 n.natAbs ≠ ['0'] := fun heq =>
      head_toDigits hne '0' (by rw [heq]; rfl) rfl
    have hn : -(n.natAbs : Int) = n := by omega
    rw [List.cons_append, hnumber true n.natAbs _ (accept_cons '-' _) (by simpa using hzero),
      if_pos rfl, hn]
  · have hdigit : ∀ c ∈ (Nat.toDigits 10 n.natAbs ++ rest).head?, c ≠ '-' := by
      intro c hc heq
      have hne : Nat.toDigits 10 n.natAbs ≠ [] := Nat.toDigits_ne_nil
      rw [List.head?_append_of_ne_nil _ hne] at hc
      have hdigit := Text.isDigit_of_mem_toDigits (List.mem_of_head? hc)
      rw [heq] at hdigit
      exact absurd hdigit (by decide)
    have hn : (n.natAbs : Int) = n := by omega
    rw [hnumber false n.natAbs _ (accept_of_head hdigit) rfl, if_neg (by decide), hn]

/-! ### Texts of values -/

/-- Whether a value holds no numbers but integers and nests at most so deep. -/
def Value.isPlain : Nat → Value → Bool
  | _, .null | _, .bool _ | _, .integer _ | _, .string _ => true
  | _, .decimal _ => false
  | 0, .array _ | 0, .object _ => false
  | n + 1, .array vs => vs.all (isPlain n)
  | n + 1, .object ms => ms.all fun m => isPlain n m.2

@[simp] theorem Value.isPlain_null (n : Nat) : Value.null.isPlain n := by cases n <;> rfl

@[simp] theorem Value.isPlain_bool (n : Nat) (b : Bool) : (Value.bool b).isPlain n := by
  cases n <;> rfl

@[simp] theorem Value.isPlain_nat (n m : Nat) : (Value.nat m).isPlain n := by cases n <;> rfl

@[simp] theorem Value.isPlain_string (n : Nat) (s : String) : (Value.string s).isPlain n := by
  cases n <;> rfl

theorem printItems_eq (level : Nat) (vs : List Value) :
    printItems level vs = vs.flatMap fun v => ',' :: newLine level ++ v.print level := by
  induction vs with
  | nil => simp [printItems]
  | cons v vs ih => simp [printItems, ih]

def memberText (level : Nat) (m : String × Value) : List Char :=
  quote m.1 ++ [':', ' '] ++ m.2.print level

theorem printMembers_eq (level : Nat) (ms : List (String × Value)) :
    printMembers level ms = ms.flatMap fun m => ',' :: newLine level ++ memberText level m := by
  induction ms with
  | nil => simp [printMembers]
  | cons m ms ih =>
    obtain ⟨k, v⟩ := m
    simp [printMembers, memberText, ih]

/-- Whether a character may be the first one of a value. -/
def OpensValue (c : Char) : Prop := isBlank c = false ∧ c ≠ ']' ∧ c ≠ '\x7d'

instance : DecidablePred OpensValue := fun _ => inferInstanceAs (Decidable (_ ∧ _))

theorem opensValue_of_isDigit {c : Char} (h : Text.isDigit c) : OpensValue c := by
  simp only [Text.isDigit, Bool.and_eq_true, decide_eq_true_eq] at h
  refine ⟨?_, ?_, ?_⟩
  · simp only [isBlank, Bool.or_eq_false_iff, decide_eq_false_iff_not]
    refine ⟨⟨⟨?_, ?_⟩, ?_⟩, ?_⟩ <;> rintro rfl <;> revert h <;> decide
  all_goals rintro rfl; revert h; decide

theorem exists_head_print {n : Nat} (level : Nat) {v : Value} (hv : v.isPlain n) :
    ∃ c cs, v.print level = c :: cs ∧ OpensValue c := by
  cases v with
  | null => exact ⟨'n', _, rfl, by decide⟩
  | bool b => cases b <;> exact ⟨_, _, rfl, by decide⟩
  | integer i =>
    have hne : Nat.toDigits 10 i.natAbs ≠ [] := Nat.toDigits_ne_nil
    obtain ⟨c, cs, hcs⟩ := List.exists_cons_of_ne_nil hne
    have hc : Text.isDigit c := Text.isDigit_of_mem_toDigits (by rw [hcs]; exact List.mem_cons_self)
    rw [Value.print, Text.toList_toString]
    split_ifs with hsign
    · exact ⟨'-', _, rfl, by decide⟩
    · exact ⟨c, cs, hcs, opensValue_of_isDigit hc⟩
  | decimal text => cases n <;> simp [Value.isPlain] at hv
  | string s => exact ⟨'"', _, rfl, by decide⟩
  | array vs => cases vs <;> exact ⟨'[', _, rfl, by decide⟩
  | object ms => rcases ms with _ | ⟨⟨k, v⟩, ms⟩ <;> exact ⟨'\x7b', _, rfl, by decide⟩

/-! ### Values without parts -/

theorem scalar_null (rest : List Char) :
    scalar (['n', 'u', 'l', 'l'] ++ rest) = some (.null, rest) := by
  unfold scalar
  rw [run_bind (accept_append _ rest)]
  rfl

theorem scalar_true (rest : List Char) :
    scalar (['t', 'r', 'u', 'e'] ++ rest) = some (.bool true, rest) := by
  unfold scalar
  rw [run_bind (accept_of_head (by simp)), if_neg (by decide), run_bind (accept_append _ rest)]
  rfl

theorem scalar_false (rest : List Char) :
    scalar (['f', 'a', 'l', 's', 'e'] ++ rest) = some (.bool false, rest) := by
  unfold scalar
  rw [run_bind (accept_of_head (by simp)), if_neg (by decide), run_bind (accept_of_head (by simp)),
    if_neg (by decide), run_bind (accept_append _ rest)]
  rfl

theorem scalar_quote (s : String) (rest : List Char) :
    scalar (quote s ++ rest) = some (.string s, rest) := by
  have hquote : quote s ++ rest = '"' :: (s.toList.flatMap escapeChar ++ '"' :: rest) := by
    simp [quote]
  rw [hquote]
  unfold scalar
  rw [run_bind (accept_of_head (by simp)), if_neg (by decide), run_bind (accept_of_head (by simp)),
    if_neg (by decide), run_bind (accept_of_head (by simp)), if_neg (by decide),
    run_bind (accept_cons _ _), if_pos rfl, run_bind (stringBody_quote s rest)]
  rfl

/-- What starts as no word and no string is read as a number. -/
theorem scalar_of_head {cs : List Char} (h : ∀ c ∈ cs.head?, Text.isDigit c ∨ c = '-') :
    scalar cs = number cs := by
  have hhead : ∀ d, (Text.isDigit d || d = '-') = false → ∀ c ∈ cs.head?, c ≠ d := by
    rintro d hd c hc rfl
    have hc := h c hc
    simp only [Bool.or_eq_false_iff, decide_eq_false_iff_not] at hd
    simp [hd] at hc
  unfold scalar
  rw [run_bind (accept_of_head (hhead 'n' (by decide))), if_neg (by decide),
    run_bind (accept_of_head (hhead 't' (by decide))), if_neg (by decide),
    run_bind (accept_of_head (hhead 'f' (by decide))), if_neg (by decide),
    run_bind (accept_of_head (hhead '"' (by decide))), if_neg (by decide)]

theorem head_toString (n : Int) (rest : List Char) :
    ∀ c ∈ ((toString n).toList ++ rest).head?, Text.isDigit c ∨ c = '-' := by
  have hne : Nat.toDigits 10 n.natAbs ≠ [] := Nat.toDigits_ne_nil
  rw [Text.toList_toString]
  split_ifs with hsign
  · intro c hc
    exact .inr (Option.mem_some_iff.mp hc).symm
  · intro c hc
    rw [List.head?_append_of_ne_nil _ hne] at hc
    exact .inl (Text.isDigit_of_mem_toDigits (List.mem_of_head? hc))

theorem scalar_toString (n : Int) {rest : List Char} (hrest : EndsNumber rest) :
    scalar ((toString n).toList ++ rest) = some (.integer n, rest) := by
  rw [scalar_of_head (head_toString n rest), number_toString n hrest]

/-! ### Values -/

/-- What starts neither as an array nor as an object is read as a value without parts. -/
theorem valueWithin_of_head {cs : List Char} (n : Nat) (harray : ∀ c ∈ cs.head?, c ≠ '[')
    (hobject : ∀ c ∈ cs.head?, c ≠ '\x7b') : valueWithin n cs = scalar cs := by
  cases n with
  | zero => rfl
  | succ n =>
    unfold valueWithin
    rw [run_bind (accept_of_head harray), if_neg (by decide),
      run_bind (accept_of_head hobject), if_neg (by decide)]

/-! ### Lists -/

section Lists

variable {ι : Type} {item : Reader ι} {close : Char} {text : ι → List Char} {P : ι → Prop}
  {rest : List Char}

/-- The text of a list behind its bracket. -/
def listText (close : Char) (text : ι → List Char) (level : Nat) : List ι → List Char
  | [] => [close]
  | x :: xs => newLine (level + 1) ++ (text x ++ (xs.flatMap (fun y =>
      ',' :: newLine (level + 1) ++ text y) ++ (newLine level ++ [close])))

variable (hopens : ∀ x, P x → ∃ c cs, text x = c :: cs ∧ isBlank c = false ∧ c ≠ close)
  (hitem : ∀ x rest, P x → EndsNumber rest → item (text x ++ rest) = some (x, rest))
include hopens hitem

theorem itemStep_next (whole : List ι → Value) (level : Nat) (read : List ι) (x y : ι)
    (rest : List Char) (hx : P x) (hy : P y) :
    itemStep item close whole read (text x ++ (',' :: newLine level ++ (text y ++ rest))) =
      some (.inl (x :: read), text y ++ rest) := by
  obtain ⟨c, cs, hcs, hc, -⟩ := hopens y hy
  have hblank : ∀ d ∈ (text y ++ rest).head?, isBlank d = false := by
    rw [hcs]
    simpa using hc
  unfold itemStep
  rw [run_bind (hitem x _ hx (by simp [EndsNumber]; decide)), List.cons_append,
    run_bind (blanks_of_head (by simp; decide)), run_bind (accept_cons _ _), if_pos rfl,
    run_bind (blanks_append (isBlank_of_mem_newLine level) hblank)]
  rfl

omit hopens in
theorem itemStep_last (hclose : isBlank close = false ∧ close ≠ ',') (whole : List ι → Value)
    (level : Nat) (read : List ι) (x : ι) (hx : P x) :
    itemStep item close whole read (text x ++ (newLine level ++ [close] ++ rest)) =
      some (.inr (whole (x :: read).reverse), rest) := by
  unfold itemStep
  rw [run_bind (hitem x _ hx (by simp [EndsNumber, newLine]; decide)), List.append_assoc,
    run_bind (blanks_append (isBlank_of_mem_newLine level) (by simpa using hclose.1)),
    List.singleton_append, run_bind (accept_of_head (by simpa using hclose.2)),
    if_neg (by decide), run_bind (expect_cons _ _)]
  rfl

/-- A printed list is read item by item. -/
theorem listBody_listText (hclose : isBlank close = false ∧ close ≠ ',') (whole : List ι → Value)
    (level : Nat) {xs : List ι} (hxs : ∀ x ∈ xs, P x) :
    listBody item close whole (listText close text level xs ++ rest) = some (whole xs, rest) := by
  unfold listBody
  cases xs with
  | nil =>
    rw [listText, List.singleton_append, run_bind (blanks_of_head (by simpa using hclose.1)),
      run_bind (accept_cons _ _)]
    rfl
  | cons x xs =>
    have hx : P x := hxs x List.mem_cons_self
    obtain ⟨c, cs, hcs, hblank, hc⟩ := hopens x hx
    let items := xs.flatMap fun y => ',' :: newLine (level + 1) ++ text y
    let tail := text x ++ (items ++ (newLine level ++ [close] ++ rest))
    have htext : listText close text level (x :: xs) ++ rest = newLine (level + 1) ++ tail := by
      simp [listText, items, tail]
    have hhead : ∀ P : Char → Prop, P c → ∀ d ∈ tail.head?, P d := by
      intro P hP
      simp [tail, hcs, hP]
    have hlength : xs.length ≤ tail.length := by
      have hitems : xs.length ≤ items.length := length_le_flatMap (by simp) xs
      simp only [tail, List.length_append]
      omega
    have hread : iterate (itemStep item close whole) tail [] tail =
        some (whole ((x :: xs).reverse ++ []).reverse, rest) :=
      iterate_separated (fun read => whole read.reverse)
        (fun read x y rest => itemStep_next hopens hitem whole (level + 1) read x y rest)
        (fun read x => itemStep_last hitem hclose whole level read x) hx
        (fun y hy => hxs y (List.mem_cons_of_mem _ hy)) [] tail hlength
    rw [List.append_nil, List.reverse_reverse] at hread
    rw [htext, run_bind (blanks_append (isBlank_of_mem_newLine _) (hhead _ hblank)),
      run_bind (accept_of_head (hhead (· ≠ close) hc)), if_neg (by decide)]
    exact hread

end Lists

theorem member_memberText {value : Reader Value} {level : Nat} {m : String × Value}
    {rest : List Char} (hopens : ∃ c cs, m.2.print level = c :: cs ∧ OpensValue c)
    (hvalue : value (m.2.print level ++ rest) = some (m.2, rest)) :
    member value (memberText level m ++ rest) = some (m, rest) := by
  obtain ⟨c, cs, hcs, hc, -⟩ := hopens
  have htext : memberText level m ++ rest = '"' :: (m.1.toList.flatMap escapeChar ++
      '"' :: ':' :: ([' '] ++ (m.2.print level ++ rest))) := by
    simp [memberText, quote]
  have hblank : ∀ d ∈ (m.2.print level ++ rest).head?, isBlank d = false := by
    rw [hcs]
    simpa using hc
  rw [htext]
  unfold member
  rw [run_bind (expect_cons _ _), run_bind (stringBody_quote _ _),
    run_bind (blanks_of_head (by simp; decide)), run_bind (expect_cons _ _),
    run_bind (blanks_append (by simp; decide) hblank), run_bind hvalue]
  rfl

theorem print_array (level : Nat) (vs : List Value) :
    (Value.array vs).print level = '[' :: listText ']' (Value.print (level + 1)) level vs := by
  cases vs with
  | nil => simp [Value.print, listText]
  | cons v vs => simp [Value.print, listText, printItems_eq]

theorem print_object (level : Nat) (ms : List (String × Value)) :
    (Value.object ms).print level =
      '\x7b' :: listText '\x7d' (memberText (level + 1)) level ms := by
  cases ms with
  | nil => simp [Value.print, listText]
  | cons m ms => simp [Value.print, listText, memberText, printMembers_eq]

theorem valueWithin_print_of_scalar {v : Value} (hv : v.isPlain 0) (n level : Nat)
    {rest : List Char} (hrest : EndsNumber rest) :
    valueWithin n (v.print level ++ rest) = some (v, rest) := by
  have hnumber : ∀ i : Int, ∀ d, (Text.isDigit d || d = '-') = false →
      ∀ c ∈ ((toString i).toList ++ rest).head?, c ≠ d := by
    rintro i d hd c hc rfl
    have hc := head_toString i rest c hc
    simp only [Bool.or_eq_false_iff, decide_eq_false_iff_not] at hd
    simp [hd] at hc
  cases v with
  | null =>
    rw [Value.print, valueWithin_of_head n (by simp) (by simp), scalar_null]
  | bool b =>
    cases b with
    | true => rw [Value.print, valueWithin_of_head n (by simp) (by simp), scalar_true]
    | false => rw [Value.print, valueWithin_of_head n (by simp) (by simp), scalar_false]
  | integer i =>
    rw [Value.print, valueWithin_of_head n (hnumber i '[' (by decide))
      (hnumber i '\x7b' (by decide)), scalar_toString i hrest]
  | decimal text => simp [Value.isPlain] at hv
  | string s =>
    rw [Value.print, valueWithin_of_head n (by simp [quote]) (by simp [quote]), scalar_quote]
  | array vs => simp [Value.isPlain] at hv
  | object ms => simp [Value.isPlain] at hv

/-- Printed values are read back, whatever the level that they are printed at. -/
theorem valueWithin_print {n : Nat} {v : Value} (hv : v.isPlain n) (level : Nat)
    {rest : List Char} (hrest : EndsNumber rest) :
    valueWithin n (v.print level ++ rest) = some (v, rest) := by
  induction n generalizing v level rest with
  | zero => exact valueWithin_print_of_scalar hv 0 level hrest
  | succ n ih =>
    cases v with
    | null | bool | integer | string => exact valueWithin_print_of_scalar rfl (n + 1) level hrest
    | decimal text => simp [Value.isPlain] at hv
    | array vs =>
      have hvs : ∀ v ∈ vs, v.isPlain n := by simpa [Value.isPlain] using hv
      have hopens : ∀ v : Value, v.isPlain n →
          ∃ c cs, v.print (level + 1) = c :: cs ∧ isBlank c = false ∧ c ≠ ']' := by
        intro v hv
        obtain ⟨c, cs, hcs, hblank, hclose, -⟩ := exists_head_print (level + 1) hv
        exact ⟨c, cs, hcs, hblank, hclose⟩
      rw [print_array, List.cons_append, valueWithin, run_bind (accept_cons _ _), if_pos rfl]
      exact listBody_listText hopens (fun v rest hv hrest => ih hv (level + 1) hrest) (by decide)
        .array level hvs
    | object ms =>
      have hms : ∀ m ∈ ms, m.2.isPlain n := by simpa [Value.isPlain] using hv
      have hopens : ∀ m : String × Value, m.2.isPlain n →
          ∃ c cs, memberText (level + 1) m = c :: cs ∧ isBlank c = false ∧ c ≠ '\x7d' :=
        fun m _ => ⟨'"', _, rfl, by decide, by decide⟩
      have hmember : ∀ (m : String × Value) rest, m.2.isPlain n → EndsNumber rest →
          member (valueWithin n) (memberText (level + 1) m ++ rest) = some (m, rest) :=
        fun m rest hm hrest =>
          member_memberText (exists_head_print (level + 1) hm) (ih hm (level + 1) hrest)
      rw [print_object, List.cons_append, valueWithin, run_bind (accept_of_head (by simp)),
        if_neg (by decide), run_bind (accept_cons _ _), if_pos rfl]
      exact listBody_listText hopens hmember (by decide) .object level hms

/-- A printed value is read back from a text that is a line of it. -/
theorem parse_pretty {v : Value} (hv : v.isPlain 127) : parse (v.pretty ++ "\n") = some v := by
  obtain ⟨c, cs, hcs, hc, -⟩ := exists_head_print 0 hv
  have htext : (v.pretty ++ "\n").toList = v.print 0 ++ ['\n'] := by
    simp [Value.pretty]
  have hread : (do blanks; let w ← valueWithin 127; blanks; return w : Reader Value)
      (v.print 0 ++ ['\n']) = some (v, []) := by
    rw [run_bind (blanks_of_head (by rw [hcs]; simpa using hc)),
      run_bind (valueWithin_print hv 0 (by simp [EndsNumber]; decide))]
    rfl
  rw [parse, htext, readAll, hread]

end QualityGate.Json
