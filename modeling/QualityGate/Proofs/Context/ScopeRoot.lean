import Mathlib.Data.List.Basic
import QualityGate.Rule.Basic

/-! Files below a scope root. A path that is continued by plain names and then taken relative
to itself leaves these names, in their own spelling, whatever the root is and however it is
written. Classification only sees the names, so nothing above the root plays a part in it. -/
namespace QualityGate

namespace Path

/-- A path of plain names with single slashes between them: no segment is empty, a dot or two
dots. Such a path is relative and not empty. -/
def IsPlain (p : Path) : Prop := ∀ s ∈ p.segments, isVoid s = false ∧ s ≠ ['.', '.']

instance (p : Path) : Decidable p.IsPlain := inferInstanceAs (Decidable (∀ s ∈ p.segments, _))

theorem ofSegments_segments (p : Path) : ofSegments p.segments = p := by
  simp [ofSegments, segments, Text.join_split]

@[simp] theorem isVoid_nil : isVoid [] = true := rfl

/-! ### Components -/

theorem Component.isSome_ofSegment? (s : List Char) :
    (Component.ofSegment? s).isSome = !isVoid s := by
  unfold Component.ofSegment?
  split_ifs <;> simp_all

theorem filterMap_ofSegment?_plain {ss : List (List Char)}
    (h : ∀ s ∈ ss, isVoid s = false ∧ s ≠ ['.', '.']) :
    ss.filterMap Component.ofSegment? = ss.map .normal := by
  rw [← List.filterMap_eq_map]
  refine List.filterMap_congr fun s hs => ?_
  obtain ⟨hvoid, hparent⟩ := h s hs
  simp [Component.ofSegment?, hvoid, hparent]

theorem length_filterMap_ofSegment? (ss : List (List Char)) :
    (ss.filterMap Component.ofSegment?).length = ss.countP (!isVoid ·) := by
  simp only [List.length_filterMap_eq_countP, Component.isSome_ofSegment?]

theorem components_eq {p : Path} {head : Option Component} {rest : List (List Char)}
    (h : anchor p.segments = (head, rest)) :
    p.components = head.toList ++ rest.filterMap Component.ofSegment? := by
  rw [components, h]

/-! ### Segments at the right end -/

section Ends

variable {ss : List (List Char)} (h : ∀ s ∈ ss, isVoid s = false)
include h

theorem dropVoidRight_append_plain (vs : List (List Char)) (hne : ss ≠ []) :
    dropVoidRight (vs ++ ss) = vs ++ ss := by
  obtain ⟨init, last, rfl⟩ := List.eq_nil_or_concat ss |>.resolve_left hne
  have hlast : isVoid last = false := h last (by simp)
  simp [dropVoidRight, hlast]

theorem dropWhile_isVoid_append {vs : List (List Char)} (hvs : ∀ s ∈ vs, isVoid s = true) :
    (vs ++ ss).dropWhile isVoid = ss := by
  rw [List.dropWhile_append_of_pos hvs]
  cases ss with
  | nil => rfl
  | cons s ss => rw [List.dropWhile_cons_of_neg (by simp [h s])]

end Ends

/-- Dropping as many segments as a list has that name something leaves void ones of it, and
what stands behind. -/
theorem dropSegments_countP (rest ss : List (List Char)) :
    ∃ vs, (∀ s ∈ vs, isVoid s = true) ∧
      dropSegments (rest.countP (!isVoid ·)) (rest ++ ss) = vs ++ ss := by
  induction rest with
  | nil => exact ⟨[], by simp, by simp [dropSegments]⟩
  | cons r rest ih =>
    obtain ⟨vs, hvs, heq⟩ := ih
    cases hr : isVoid r with
    | false =>
      refine ⟨vs, hvs, ?_⟩
      rw [List.countP_cons_of_pos (by simp [hr]), List.cons_append, dropSegments, hr]
      exact heq
    | true =>
      rw [List.countP_cons_of_neg (by simp [hr])]
      cases hcount : rest.countP (!isVoid ·) with
      | zero =>
        -- nothing is dropped, so the segments of the list are what is left of it
        refine ⟨r :: rest, ?_, by simp [dropSegments]⟩
        rw [List.countP_eq_zero] at hcount
        intro s hs
        rcases List.mem_cons.mp hs with rfl | hs
        · exact hr
        · simpa using hcount s hs
      | succ n =>
        rw [hcount] at heq
        refine ⟨vs, hvs, ?_⟩
        rw [List.cons_append, dropSegments, if_pos hr]
        exact heq


/-! ### Continued paths -/

variable {rel : Path}

theorem segments_ne_nil (p : Path) : p.segments ≠ [] := Text.split_ne_nil _ _

theorem IsPlain.isVoid_eq_false (h : rel.IsPlain) : ∀ s ∈ rel.segments, isVoid s = false :=
  fun s hs => (h s hs).1

theorem IsPlain.not_isAbsolute (h : rel.IsPlain) : rel.isAbsolute = false := by
  rw [isAbsolute, decide_eq_false_iff_not]
  intro hslash
  obtain ⟨cs, hcs⟩ := List.head?_eq_some_iff.mp hslash
  have hempty : [] ∈ rel.segments := by
    rw [segments, hcs, Text.split_cons_sep]
    exact List.mem_cons_self
  simpa using h.isVoid_eq_false [] hempty

/-- Continuing a path puts the new segments behind its own; an empty segment at the end of a
path gives way to them. -/
theorem segments_append (h : rel.IsPlain) (root : Path) : ∃ base,
    (root / rel).segments = base ++ rel.segments ∧
      (root.segments = base ∧ base ≠ [[]] ∨ root.segments = base ++ [[]]) := by
  have htext : root / rel = if root.text.isEmpty || root.text.toList.getLast? = some '/' then
      ⟨root.text ++ rel.text⟩ else ⟨root.text ++ "/" ++ rel.text⟩ := by
    show root.append rel = _
    rw [append, h.not_isAbsolute]
    simp only [Bool.false_eq_true, if_false]
  rw [htext]
  by_cases hempty : root.text = ""
  · refine ⟨[], ?_, .inr ?_⟩
    · simp [hempty, segments]
    · simp [segments, hempty]
  · by_cases hslash : root.text.toList.getLast? = some '/'
    · obtain ⟨cs, hcs⟩ := List.getLast?_eq_some_iff.mp hslash
      refine ⟨Text.split '/' cs, ?_, .inr ?_⟩
      · simp [segments, hcs, Text.split_append_sep]
      · simp [segments, hcs, Text.split_append_sep]
    · refine ⟨root.segments, ?_, .inl ⟨rfl, ?_⟩⟩
      · have hsep : "/".toList = ['/'] := rfl
        simp [hempty, hslash, segments, hsep, Text.split_append_sep]
      · intro hroot
        apply hempty
        have hjoin := Text.join_split '/' root.text.toList
        rw [segments] at hroot
        rw [hroot] at hjoin
        exact String.toList_eq_nil_iff.mp hjoin.symm

/-- What stands in front of a path is decided by the segments that it begins with. Where they
are neither a slash nor a dot, the first of them names something. -/
theorem anchor_append {base : List (List Char)} (hne : base ≠ []) : ∃ head rest,
    (∀ tail, tail ≠ [] → anchor (base ++ tail) = (head, rest ++ tail)) ∧
      (base ≠ [[]] → anchor base = (head, rest)) ∧
      (head = none → 0 < rest.countP (!isVoid ·)) := by
  match base, hne with
  | [[]], _ =>
    refine ⟨some .root, [], fun tail htail => ?_, fun h => absurd rfl h, nofun⟩
    obtain ⟨s, ss, rfl⟩ := List.exists_cons_of_ne_nil htail
    rfl
  | [] :: r :: rest, _ => exact ⟨some .root, r :: rest, fun _ _ => rfl, fun _ => rfl, nofun⟩
  | (c :: cs) :: rest, _ =>
    by_cases hdot : c :: cs = ['.']
    · exact ⟨some .current, rest, fun _ _ => by rw [hdot]; rfl, fun _ => by rw [hdot]; rfl, nofun⟩
    · have hnone : ∀ ss, anchor ((c :: cs) :: ss) = (none, (c :: cs) :: ss) := by
        intro ss
        unfold anchor
        split <;> simp_all
      refine ⟨none, (c :: cs) :: rest, fun tail _ => hnone _, fun _ => hnone _, fun _ => ?_⟩
      have hfirst : isVoid (c :: cs) = false := by simp [isVoid, hdot]
      rw [List.countP_cons_of_pos (by simp [hfirst])]
      omega

/-- A path and its continuation by plain names begin alike, up to an empty segment at the end of
the path. Without a slash or a dot in front, the path has no segments of its own or one that
names something. -/
theorem anchor_append_plain (h : rel.IsPlain) (root : Path) : ∃ head rest,
    anchor (root / rel).segments = (head, rest ++ rel.segments) ∧
      (anchor root.segments = (head, rest) ∨ anchor root.segments = (head, rest ++ [[]])) ∧
      (head = none → rest.countP (!isVoid ·) = 0 → rest = []) := by
  obtain ⟨base, hsegments, hroot⟩ := segments_append h root
  rw [hsegments]
  by_cases hbase : base = []
  · have hroot : root.segments = [[]] := by
      simpa [hbase, segments_ne_nil] using hroot
    refine ⟨none, [], ?_, .inr (by rw [hroot]; rfl), fun _ _ => rfl⟩
    rw [hbase, List.nil_append]
    have hfirst := h.isVoid_eq_false
    unfold anchor
    split <;> simp_all [isVoid]
  · obtain ⟨head, rest, htail, hself, hnone⟩ := anchor_append hbase
    refine ⟨head, rest, htail _ (segments_ne_nil rel), ?_, fun hh hcount => ?_⟩
    · rcases hroot with ⟨hroot, hne⟩ | hroot
      · exact .inl (by rw [hroot, hself hne])
      · exact .inr (by rw [hroot, htail _ (by simp)])
    · have := hnone hh
      omega

/-- The components of a continued path are those of the path and the new names. -/
theorem components_append (h : rel.IsPlain) (root : Path) :
    (root / rel).components = root.components ++ rel.segments.map .normal := by
  obtain ⟨head, rest, hjoined, hroot, -⟩ := anchor_append_plain h root
  have hown : root.components = head.toList ++ rest.filterMap Component.ofSegment? := by
    rcases hroot with hroot | hroot
    · exact components_eq hroot
    · rw [components_eq hroot, List.filterMap_append]
      simp [Component.ofSegment?]
  rw [components_eq hjoined, hown, List.filterMap_append, filterMap_ofSegment?_plain h,
    List.append_assoc]

/-- Behind the components of a path, its continuation has just the new names. -/
theorem dropComponents_append (h : rel.IsPlain) (root : Path) :
    (root / rel).dropComponents root.components.length = rel := by
  obtain ⟨head, rest, hjoined, hroot, hnone⟩ := anchor_append_plain h root
  have hlength : root.components.length = head.toList.length + rest.countP (!isVoid ·) := by
    rcases hroot with hroot | hroot
    · rw [components_eq hroot, List.length_append, length_filterMap_ofSegment?]
    · rw [components_eq hroot, List.length_append, length_filterMap_ofSegment?,
        List.countP_append]
      simp
  have hplain := h.isVoid_eq_false
  have htrim : ∀ vs, (∀ s ∈ vs, isVoid s = true) → ofSegments (trimVoid (vs ++ rel.segments)) = rel := by
    intro vs hvs
    have hend := dropVoidRight_append_plain hplain [] (segments_ne_nil rel)
    rw [trimVoid, dropWhile_isVoid_append hplain hvs]
    rw [List.nil_append] at hend
    rw [hend, ofSegments_segments]
  obtain ⟨vs, hvs, hdrop⟩ := dropSegments_countP rest rel.segments
  cases head with
  | some step =>
    rw [hlength, Option.toList_some, List.length_singleton, Nat.add_comm, dropComponents, hjoined]
    dsimp only
    rw [hdrop, htrim vs hvs]
  | none =>
    rw [hlength, Option.toList_none, List.length_nil, Nat.zero_add]
    cases hcount : rest.countP (!isVoid ·) with
    | zero =>
      rw [hnone rfl hcount, List.nil_append] at hjoined
      rw [dropComponents, trimRight, hjoined]
      have hend := dropVoidRight_append_plain hplain [] (segments_ne_nil rel)
      rw [List.nil_append] at hend
      dsimp only
      rw [hend, ofSegments_segments]
    | succ n =>
      rw [hcount] at hdrop
      rw [dropComponents, hjoined]
      dsimp only
      rw [hdrop, htrim vs hvs]

theorem components_of_isPlain (h : rel.IsPlain) : rel.components = rel.segments.map .normal := by
  have hself : (⟨""⟩ / rel : Path) = rel := by
    show append ⟨""⟩ rel = rel
    simp [append, h.not_isAbsolute]
  rw [← hself, components_append h, hself]
  rfl

/-- A continued path relative to the path is the continuation, in its own spelling. -/
theorem relativeTo_append (h : rel.IsPlain) (root : Path) : (root / rel).relativeTo root = rel := by
  have hbelow : below? root (root / rel) = some rel := by
    rw [below?, components_append h, dropComponents_append h]
    simp
  have hdot : below? ⟨"."⟩ rel = none := by
    have hcomponents : (⟨"."⟩ : Path).components = [.current] := by decide
    rw [below?, components_of_isPlain h, hcomponents]
    obtain ⟨s, ss, hs⟩ := List.exists_cons_of_ne_nil (segments_ne_nil rel)
    rw [hs]
    rfl
  rw [relativeTo, hbelow, Option.getD_some, hdot]
  rfl

end Path

namespace FileContext

/-- The root of a scope and what stands above it have no part in the classification of the
files below: each is seen under its path from the root, as written, and has the same tags under
any other root. -/
theorem classified_append {rel : Path} (h : rel.IsPlain) (root root' : Path)
    (limits limits' : Thresholds) (classifiers : ClassifierSet) :
    (classified (root / rel) root limits classifiers).relativePath = rel ∧
      (classified (root / rel) root limits classifiers).tags = classifiers.classify rel ∧
      (classified (root' / rel) root' limits' classifiers).tags =
        (classified (root / rel) root limits classifiers).tags := by
  have htags : ∀ (base : Path) (limits : Thresholds),
      (classified (base / rel) base limits classifiers).tags = classifiers.classify rel := by
    intro base limits
    unfold classified withTags
    rw [Path.relativeTo_append h base]
  refine ⟨?_, htags root limits, by rw [htags root' limits', htags root limits]⟩
  unfold classified withTags
  dsimp only
  exact Path.relativeTo_append h root

/-- A directory above the root that the whole path would be classified by. -/
theorem classified_append_api :
    let rel : Path := ⟨"pkg/model.py"⟩
    let root : Path := ⟨"/home//api/../project/."⟩
    let classifiers : ClassifierSet :=
      { PerFamily.uniform default with design := { shell := [.component "api".toList] } }
    rel.IsPlain ∧ (classifiers.classify (root / rel)).design = .shell ∧
      (classified (root / rel) root .standard classifiers).relativePath = rel ∧
      (classified (root / rel) root .standard classifiers).tags.design = .core := by
  intro rel root classifiers
  have hplain : rel.IsPlain := by decide
  obtain ⟨hrel, htags, -⟩ := classified_append hplain root ⟨"."⟩ .standard .standard classifiers
  refine ⟨hplain, by decide, hrel, ?_⟩
  rw [htags]
  decide

end FileContext

end QualityGate
