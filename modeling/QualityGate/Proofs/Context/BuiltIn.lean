import Mathlib.Data.List.Infix
import QualityGate.Proofs.Context.ScopeRoot
import QualityGate.Proofs.Sequence.Traversal

/-! The built-in pattern lists. A file is shell for a family when some shell pattern matches it, and
core patterns change nothing. The names that make a file shell for the design and the error-handling
family are asked of the components of its path, the patterns of the purity family of its text. Stars
stand only at the ends of those, so a match as a glob says no more than that the pattern without the
stars and the slashes at its ends occurs in the text. The names occur in this way, too, and so a
file that is shell for its layer is shell for purity. -/
namespace QualityGate

/-! ### Globs -/

namespace Glob

theorem exists_of_anySuffix {q : List Char → Bool} {s : List Char} (h : anySuffix q s) :
    ∃ t, t <:+ s ∧ q t := by
  induction s with
  | nil => exact ⟨[], List.suffix_rfl, h⟩
  | cons c cs ih =>
    rw [anySuffix, Bool.or_eq_true] at h
    rcases h with h | h
    · exact ⟨c :: cs, List.suffix_rfl, h⟩
    · obtain ⟨t, ht, hq⟩ := ih h
      exact ⟨t, ht.trans (List.suffix_cons c cs), hq⟩

/-- An element that takes one character or any sequence leaves an end of the text to the others. -/
theorem exists_suffix_of_matchElements_cons {e : Element} (he : e ≠ .anyComponents)
    {es : List Element} {s : List Char} (h : matchElements (e :: es) s) :
    ∃ t, t <:+ s ∧ matchElements es t := by
  by_cases hany : e = .anySequence
  · rw [hany, matchElements] at h
    exact exists_of_anySuffix h
  · cases s with
    | nil => simp [matchElements, he] at h
    | cons c cs =>
      rw [matchElements, Bool.and_eq_true] at h
      · exact ⟨cs, List.suffix_cons c cs, h.2⟩
      · exact fun heq _ => he heq
      · exact he
      · exact hany

theorem exists_suffix_of_matchElements {es fs : List Element} (hes : .anyComponents ∉ es)
    {s : List Char} (h : matchElements (es ++ fs) s) : ∃ t, t <:+ s ∧ matchElements fs t := by
  induction es generalizing s with
  | nil => exact ⟨s, List.suffix_rfl, h⟩
  | cons e es ih =>
    rw [List.mem_cons, not_or] at hes
    obtain ⟨t, ht, h⟩ := exists_suffix_of_matchElements_cons (Ne.symm hes.1) h
    obtain ⟨u, hu, h⟩ := ih hes.2 h
    exact ⟨u, hu.trans ht, h⟩

theorem isPrefix_of_matchElements {word s : List Char} {fs : List Element}
    (h : matchElements (word.map .char ++ fs) s) : word <+: s := by
  induction word generalizing s with
  | nil => exact List.nil_prefix
  | cons d word ih =>
    cases s with
    | nil => simp [matchElements] at h
    | cons c cs =>
      simp only [List.map_cons, List.cons_append, matchElements, Element.fits, Bool.and_eq_true,
        decide_eq_true_eq] at h
      rw [h.1, List.cons_prefix_cons]
      exact ⟨rfl, ih h.2⟩

/-- The characters of a pattern that stand side by side occur in every text that it matches. -/
theorem isInfix_of_matchElements {es fs : List Element} {word s : List Char}
    (hes : .anyComponents ∉ es) (h : matchElements (es ++ (word.map .char ++ fs)) s) :
    word <:+: s := by
  obtain ⟨t, ht, h⟩ := exists_suffix_of_matchElements hes h
  exact (isPrefix_of_matchElements h).isInfix.trans ht.isInfix

/-- Characters that stand for themselves are compiled one by one, up to a star that ends the
pattern. -/
theorem compileFrom_word {word behind : List Char}
    (hword : ∀ c ∈ word, c ≠ '*' ∧ c ≠ '?' ∧ c ≠ '[') (hbehind : behind = [] ∨ behind = ['*'])
    (i : Nat) (prev : Option Char) :
    ∃ fs, compileFrom .between i prev (word ++ behind) = .ok (word.map .char ++ fs) := by
  induction word generalizing i prev with
  | nil =>
    rcases hbehind with rfl | rfl
    · exact ⟨[], rfl⟩
    · exact ⟨[.anySequence], rfl⟩
  | cons c word ih =>
    rw [List.forall_mem_cons] at hword
    obtain ⟨⟨hstar, hmark, hbracket⟩, hrest⟩ := hword
    obtain ⟨fs, hfs⟩ := ih hrest (i + 1) (some c)
    refine ⟨fs, ?_⟩
    have hstep : compileFrom .between i prev (c :: (word ++ behind)) =
        (.char c :: ·) <$> compileFrom .between (i + 1) (some c) (word ++ behind) := by
      simp [compileFrom, hstar, hbracket]
    rw [List.cons_append, hstep, hfs]
    rfl

theorem compileFrom_star {c : Char} (hstar : c ≠ '*') (i : Nat) (prev : Option Char)
    (cs : List Char) : compileFrom .between i prev ('*' :: c :: cs) =
      (.anySequence :: ·) <$> compileFrom .between (i + 1) (some '*') (c :: cs) := by
  simp [compileFrom, hstar]

end Glob

/-! ### Patterns with stars at their ends -/

namespace PathPattern

def starless (text : List Char) : List Char := text.filter (· ≠ '*')

/-- A text that is a star or nothing, then something without wildcards, then a star or nothing. -/
def IsFramed (text : List Char) : Prop :=
  '?' ∉ text ∧ '[' ∉ text ∧ starless text ≠ [] ∧
    ∃ before ∈ [[], ['*']], ∃ behind ∈ [[], ['*']], text = before ++ (starless text ++ behind)

instance (text : List Char) : Decidable (IsFramed text) := inferInstanceAs (Decidable (_ ∧ _))

theorem mem_starless {text : List Char} {c : Char} : c ∈ starless text ↔ c ∈ text ∧ c ≠ '*' := by
  rw [starless, List.mem_filter, decide_eq_true_eq]

/-- A framed pattern compiles to its characters between any sequences. -/
theorem compile_of_isFramed {text : String} (h : IsFramed text.toList) :
    ∃ es fs, .anyComponents ∉ es ∧
      Glob.compile text = .ok ⟨es ++ ((starless text.toList).map .char ++ fs)⟩ := by
  obtain ⟨hmark, hbracket, hne, before, hbefore, behind, hbehind, heq⟩ := h
  have hword : ∀ c ∈ starless text.toList, c ≠ '*' ∧ c ≠ '?' ∧ c ≠ '[' := by
    intro c hc
    obtain ⟨hmem, hstar⟩ := mem_starless.mp hc
    exact ⟨hstar, ne_of_mem_of_not_mem hmem hmark, ne_of_mem_of_not_mem hmem hbracket⟩
  have hrest := Glob.compileFrom_word hword (by simpa using hbehind)
  generalize starless text.toList = word at *
  rw [List.mem_cons, List.mem_singleton] at hbefore
  rcases hbefore with rfl | rfl
  · obtain ⟨fs, hfs⟩ := hrest 0 none
    refine ⟨[], fs, List.not_mem_nil, ?_⟩
    rw [Glob.compile, heq, List.nil_append, hfs]
    rfl
  · obtain ⟨fs, hfs⟩ := hrest 1 (some '*')
    refine ⟨[.anySequence], fs, by simp, ?_⟩
    obtain ⟨c, cs, rfl⟩ := List.exists_cons_of_ne_nil hne
    have hstar : c ≠ '*' := (hword c List.mem_cons_self).1
    rw [Glob.compile, heq, List.singleton_append, List.cons_append,
      Glob.compileFrom_star hstar, ← List.cons_append, hfs]
    rfl

theorem trimSlashes_isInfix (cs : List Char) : trimSlashes cs <:+: cs := by
  have hright : trimSlashes cs <+: cs.dropWhile (· = '/') := by
    rw [trimSlashes, ← List.reverse_suffix, List.reverse_reverse]
    exact List.dropWhile_suffix _
  exact hright.isInfix.trans (List.dropWhile_suffix _).isInfix

theorem fragmentOf_isInfix (text : List Char) : fragmentOf text <:+: starless text :=
  trimSlashes_isInfix (starless text)

/-- Where a framed pattern matches as a glob, its fragment occurs. -/
theorem fragmentOf_isInfix_of_isMatch {text : String} (h : IsFramed text.toList) {g : Glob}
    (hg : Glob.compile text = .ok g) {s : List Char} (hmatch : g.isMatch s) :
    fragmentOf text.toList <:+: s := by
  obtain ⟨es, fs, hes, hcompile⟩ := compile_of_isFramed h
  rw [hcompile] at hg
  obtain rfl := Except.ok.inj hg
  exact (fragmentOf_isInfix text.toList).trans (Glob.isInfix_of_matchElements hes hmatch)

/-- The text of a pattern describes a path when the pattern can be read and matches the path. -/
def Describes (text : String) (p : Path) : Prop :=
  ∃ pattern, parse text = .ok pattern ∧ pattern.isMatch p

theorem describes_name {text : String} (h : hasGlobMark text.toList = false) (p : Path) :
    Describes text p ↔ .normal text.toList ∈ p.components := by
  have hparse : parse text = .ok (.component text.toList) := by
    rw [parse, h]
    rfl
  simp [Describes, hparse, isMatch]

/-- A framed pattern describes the paths where its fragment occurs. -/
theorem describes_framed {text : String} (h : IsFramed text.toList)
    (hmark : hasGlobMark text.toList) (hfragment : fragmentOf text.toList ≠ []) (p : Path) :
    Describes text p ↔ fragmentOf text.toList <:+: p.globText := by
  obtain ⟨es, fs, -, hcompile⟩ := compile_of_isFramed h
  have hparse : parse text =
      .ok (.glob ⟨es ++ ((starless text.toList).map .char ++ fs)⟩ (fragmentOf text.toList)) := by
    rw [parse, if_pos hmark, hcompile]
    rfl
  simp only [Describes, hparse, Except.ok.injEq, exists_eq_left', isMatch, Bool.or_eq_true,
    Bool.and_eq_true, Text.occursIn_iff_isInfix]
  constructor
  · rintro (hmatch | ⟨-, hin⟩)
    · exact fragmentOf_isInfix_of_isMatch h hcompile hmatch
    · exact hin
  · intro hin
    exact .inr ⟨by simpa using hfragment, hin⟩

end PathPattern

/-! ### Components and text -/

namespace Path

theorem Component.eq_of_ofSegment? {s name : List Char}
    (h : Component.ofSegment? s = some (.normal name)) : s = name := by
  unfold Component.ofSegment? at h
  split_ifs at h
  · cases h
  · exact Component.normal.inj (Option.some.inj h)

theorem anchor_subset (ss : List (List Char)) : (anchor ss).2 ⊆ ss := by
  unfold anchor
  split
  · exact List.subset_cons_self _ _
  · exact List.subset_cons_self _ _
  · exact List.Subset.refl _

theorem anchor_ne_normal (ss : List (List Char)) (name : List Char) :
    (anchor ss).1 ≠ some (.normal name) := by
  unfold anchor
  split <;> simp

/-- A name among the components of a path is a segment of it. -/
theorem mem_segments_of_normal {p : Path} {name : List Char} (h : .normal name ∈ p.components) :
    name ∈ p.segments := by
  have hcomponents : p.components =
      (anchor p.segments).1.toList ++ (anchor p.segments).2.filterMap Component.ofSegment? :=
    components_eq rfl
  rw [hcomponents, List.mem_append, Option.mem_toList] at h
  obtain ⟨s, hs, heq⟩ := List.mem_filterMap.mp (h.resolve_left (anchor_ne_normal _ _))
  rw [← Component.eq_of_ofSegment? heq]
  exact anchor_subset _ hs

/-- A name on a path occurs in what globs see of it. -/
theorem isInfix_globText {p : Path} {name : List Char} (h : .normal name ∈ p.components)
    (hplain : '\\' ∉ name) : name <:+: p.globText := by
  have hname : name.map (fun c => if c = '\\' then '/' else c) = name := by
    refine (List.map_congr_left fun c hc => ?_).trans (List.map_id name)
    exact if_neg (ne_of_mem_of_not_mem hc hplain)
  rw [← hname]
  exact (Text.isInfix_of_mem_split (mem_segments_of_normal h)).map _

end Path

/-! ### Tables -/

theorem Tag.eq_core_iff {a : Tag} : a = .core ↔ a ≠ .shell := by
  cases a <;> simp

/-- Tags that are shell alike are the same. -/
theorem Tag.eq_of_shell_iff {a b : Tag} (h : a = .shell ↔ b = .shell) : a = b := by
  cases a <;> cases b <;> simp_all

theorem Classifier.classify_eq_shell_iff {c : Classifier} {p : Path} :
    c.classify p = .shell ↔ ∃ pattern ∈ c.shell, pattern.isMatch p := by
  rw [← List.any_eq_true, classify]
  split
  · next h => simp [h]
  · next h => simp [h]

/-- A file is shell when some text of the shell list describes its path. -/
theorem Classifier.classify_eq_shell_iff_describes {c : Classifier} {texts : List String}
    (h : texts.mapM PathPattern.parse = .ok c.shell) {p : Path} :
    c.classify p = .shell ↔ ∃ text ∈ texts, PathPattern.Describes text p := by
  simp only [classify_eq_shell_iff, mem_iff_of_mapM_eq_ok h, PathPattern.Describes]
  constructor
  · rintro ⟨pattern, ⟨text, htext, hparse⟩, hmatch⟩
    exact ⟨text, htext, pattern, hparse, hmatch⟩
  · rintro ⟨text, htext, pattern, hparse, hmatch⟩
    exact ⟨pattern, ⟨text, htext, hparse⟩, hmatch⟩

theorem Classifier.shell_of_parse {shell core : List String} {c : Classifier}
    (h : parse shell core = .ok c) : shell.mapM PathPattern.parse = .ok c.shell := by
  obtain ⟨patterns, hshell, h⟩ := bind_eq_ok_iff.mp h
  obtain ⟨others, -, h⟩ := bind_eq_ok_iff.mp h
  obtain rfl := Except.ok.inj h
  exact hshell

namespace ClassifierSet

/-- The texts of the built-in shell list of a family. -/
def builtinShell : Family → List String
  | .complexity => []
  | .design | .errorHandling => layerShell
  | .purity => purityShell

theorem exists_builtin : ∃ t, builtin = .ok t := by
  have hreads : builtin.toOption.isSome := by decide +kernel
  obtain ⟨t, ht⟩ := Option.isSome_iff_exists.mp hreads
  exact ⟨t, eq_ok_of_toOption ht⟩

/-- The built-in shell patterns of a family are those that its texts stand for. -/
theorem shell_builtin {t : ClassifierSet} (h : builtin = .ok t) (f : Family) :
    (builtinShell f).mapM PathPattern.parse = .ok (t.get f).shell := by
  obtain ⟨design, hdesign, h⟩ := bind_eq_ok_iff.mp h
  obtain ⟨purity, hpurity, h⟩ := bind_eq_ok_iff.mp h
  obtain ⟨errorHandling, herrors, h⟩ := bind_eq_ok_iff.mp h
  obtain rfl := Except.ok.inj h
  cases f with
  | complexity => rfl
  | design => exact Classifier.shell_of_parse hdesign
  | purity => exact Classifier.shell_of_parse hpurity
  | errorHandling => exact Classifier.shell_of_parse herrors

theorem get_classify (t : ClassifierSet) (p : Path) (f : Family) :
    (t.classify p).get f = (t.get f).classify p :=
  PerFamily.get_map _ t f

theorem name_of_mem_layerShell : ∀ text ∈ layerShell, PathPattern.hasGlobMark text.toList = false ∧
    '\\' ∉ text.toList ∧ text.toList ∈ purityShell.map (PathPattern.fragmentOf ·.toList) := by
  decide

theorem framed_of_mem_purityShell : ∀ text ∈ purityShell, PathPattern.IsFramed text.toList ∧
    PathPattern.hasGlobMark text.toList ∧ PathPattern.fragmentOf text.toList ≠ [] := by
  decide

theorem classify_layer {c : Classifier} (h : layerShell.mapM PathPattern.parse = .ok c.shell)
    (p : Path) :
    c.classify p = .shell ↔ ∃ name ∈ layerShell, .normal name.toList ∈ p.components := by
  rw [Classifier.classify_eq_shell_iff_describes h]
  refine exists_congr fun text => and_congr_right fun htext => ?_
  exact PathPattern.describes_name (name_of_mem_layerShell text htext).1 p

theorem classify_purity {c : Classifier} (h : purityShell.mapM PathPattern.parse = .ok c.shell)
    (p : Path) : c.classify p = .shell ↔
      ∃ text ∈ purityShell, PathPattern.fragmentOf text.toList <:+: p.globText := by
  rw [Classifier.classify_eq_shell_iff_describes h]
  refine exists_congr fun text => and_congr_right fun htext => ?_
  obtain ⟨hframed, hmark, hfragment⟩ := framed_of_mem_purityShell text htext
  exact PathPattern.describes_framed hframed hmark hfragment p

/-- With the built-in lists every file is core for complexity. It is shell for design and for error
handling if a component of its path is one of six names, and for purity if the fragment of a purity
pattern occurs in its path, which is so wherever the pattern matches as a glob. -/
theorem classify_builtin : ∃ t, builtin = .ok t ∧ ∀ p : Path,
    (t.classify p).complexity = .core ∧
    (t.classify p).errorHandling = (t.classify p).design ∧
    ((t.classify p).design = .shell ↔
      ∃ name ∈ ["handlers", "adapters", "api", "cli", "scripts", "tests"],
        .normal name.toList ∈ p.components) ∧
    ((t.classify p).purity = .shell ↔
      ∃ text ∈ purityShell, PathPattern.fragmentOf text.toList <:+: p.globText) ∧
    (∀ text ∈ purityShell, ∀ g, Glob.compile text = .ok g → g.isMatch p.globText →
      PathPattern.fragmentOf text.toList <:+: p.globText) ∧
    ((t.classify p).design = .shell → (t.classify p).purity = .shell) := by
  obtain ⟨t, ht⟩ := exists_builtin
  refine ⟨t, ht, fun p => ?_⟩
  have hcomplexity : t.complexity.classify p = .shell ↔ _ :=
    Classifier.classify_eq_shell_iff_describes (shell_builtin ht .complexity)
  have hdesign := classify_layer (shell_builtin ht .design) p
  have herrors := classify_layer (shell_builtin ht .errorHandling) p
  have hpurity := classify_purity (shell_builtin ht .purity) p
  refine ⟨?_, ?_, hdesign, hpurity, ?_, ?_⟩
  · refine Tag.eq_core_iff.mpr fun hshell => ?_
    obtain ⟨text, htext, -⟩ := hcomplexity.mp hshell
    cases htext
  · exact Tag.eq_of_shell_iff (herrors.trans hdesign.symm)
  · intro text htext g hg hmatch
    have hframed := (framed_of_mem_purityShell text htext).1
    exact PathPattern.fragmentOf_isInfix_of_isMatch hframed hg hmatch
  · intro hshell
    obtain ⟨name, hname, hmem⟩ := hdesign.mp hshell
    obtain ⟨-, hplain, hfragment⟩ := name_of_mem_layerShell name hname
    obtain ⟨text, htext, heq⟩ := List.mem_map.mp hfragment
    refine hpurity.mpr ⟨text, htext, ?_⟩
    rw [heq]
    exact Path.isInfix_globText hmem hplain

end ClassifierSet

end QualityGate
