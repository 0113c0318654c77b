import Mathlib.Data.List.DropRight
import QualityGate.Proofs.Context.ScopeRoot

/-! Paths with and without a dot in front. A leading dot is a component of its own, so a root that
is written with one begins only paths that are written with one too, and a root without one only
the others. What is left of a path of names behind the root is computed here for both spellings of
the path and for every root. -/
namespace QualityGate.Path

def Component.isName : Component → Bool
  | .normal _ => true
  | _ => false

/-- A path of names starts with neither a slash nor a dot, and never goes up. It may have
slashes and dots that say nothing, between its names and behind them. -/
def HasNames (p : Path) : Prop := ∀ k ∈ p.components, k.isName

instance (p : Path) : Decidable p.HasNames := inferInstanceAs (Decidable (∀ k ∈ p.components, _))

def dotted (p : Path) : Path := ⟨"./" ++ p.text⟩

/-- The components without a dot in front. -/
def steps (p : Path) : List Component := p.components.filter (· ≠ .current)

/-- Whether the steps of a root, one at least, begin a path, however the root is written. -/
def LiesAbove (root p : Path) : Prop := root.steps ≠ [] ∧ root.steps <+: p.components

instance (root p : Path) : Decidable (root.LiesAbove p) :=
  inferInstanceAs (Decidable (_ ∧ _))

/-! ### Void segments at the ends -/

theorem dropVoidRight_isPrefix (ss : List (List Char)) : dropVoidRight ss <+: ss := by
  rw [dropVoidRight, ← List.reverse_suffix, List.reverse_reverse]
  exact List.dropWhile_suffix _

theorem dropVoidRight_isSuffix {ss ts : List (List Char)} (h : ss <:+ ts) :
    dropVoidRight ss <:+ dropVoidRight ts := by
  obtain ⟨us, rfl⟩ := h
  rw [dropVoidRight, dropVoidRight, List.reverse_append, List.reverse_suffix,
    List.dropWhile_append]
  split
  · rename_i hempty
    rw [List.isEmpty_iff.mp hempty]
    exact List.nil_prefix
  · exact List.prefix_append ..

theorem mem_of_mem_trimVoid {s : List Char} {ss : List (List Char)} (h : s ∈ trimVoid ss) :
    s ∈ ss :=
  (List.dropWhile_suffix _).subset ((dropVoidRight_isPrefix _).subset h)

theorem isVoid_of_head_trimVoid {s : List Char} {ss rest : List (List Char)}
    (h : trimVoid ss = s :: rest) : isVoid s = false := by
  obtain ⟨tail, htail⟩ := dropVoidRight_isPrefix (ss.dropWhile isVoid)
  rw [← trimVoid, h] at htail
  have hhead := List.head?_dropWhile_not isVoid ss
  rw [← htail] at hhead
  simpa using hhead

theorem filterMap_dropWhile_isVoid (ss : List (List Char)) :
    (ss.dropWhile isVoid).filterMap Component.ofSegment? = ss.filterMap Component.ofSegment? := by
  induction ss with
  | nil => rfl
  | cons s ss ih =>
    rw [List.dropWhile_cons]
    split
    · rename_i hs
      rw [ih, List.filterMap_cons_none]
      simpa [hs] using Component.isSome_ofSegment? s
    · rfl

theorem filterMap_trimVoid (ss : List (List Char)) :
    (trimVoid ss).filterMap Component.ofSegment? = ss.filterMap Component.ofSegment? := by
  rw [trimVoid, dropVoidRight, List.filterMap_reverse, filterMap_dropWhile_isVoid,
    List.filterMap_reverse, List.reverse_reverse, filterMap_dropWhile_isVoid]

/-! ### What stands in front -/

theorem current_not_mem_filterMap (ss : List (List Char)) :
    .current ∉ ss.filterMap Component.ofSegment? := by
  intro h
  obtain ⟨s, -, hs⟩ := List.mem_filterMap.mp h
  unfold Component.ofSegment? at hs
  split_ifs at hs <;> simp at hs

theorem components_eq_steps (p : Path) :
    p.components = p.steps ∨ p.components = .current :: p.steps := by
  have hrest : ∀ ss : List (List Char), (ss.filterMap Component.ofSegment?).filter (· ≠ .current) =
      ss.filterMap Component.ofSegment? := by
    intro ss
    refine List.filter_eq_self.mpr fun k hk => ?_
    have hne : k ≠ .current := fun heq => current_not_mem_filterMap ss (heq ▸ hk)
    simpa using hne
  cases hanchor : anchor p.segments with
  | mk head rest =>
    rw [steps, components_eq hanchor]
    cases head with
    | none => exact .inl (hrest rest).symm
    | some k =>
      by_cases hk : k = .current
      · right
        rw [hk, Option.toList_some, List.singleton_append, List.filter_cons_of_neg (by simp),
          hrest]
      · left
        rw [Option.toList_some, List.singleton_append, List.filter_cons_of_pos (by simpa using hk),
          hrest]

theorem current_not_mem_steps (p : Path) : .current ∉ p.steps := by
  simp [steps]

theorem anchor_of_fst_eq_none {ss : List (List Char)} (h : (anchor ss).1 = none) :
    anchor ss = (none, ss) := by
  unfold anchor at h ⊢
  split <;> simp_all

/-- The path that trimmed segments write has their components. -/
theorem components_ofSegments_trimVoid {ss : List (List Char)} (h : ∀ s ∈ ss, '/' ∉ s) :
    (ofSegments (trimVoid ss)).components = ss.filterMap Component.ofSegment? := by
  rw [← filterMap_trimVoid]
  cases htrim : trimVoid ss with
  | nil => rfl
  | cons s rest =>
    have hsegments : (ofSegments (s :: rest)).segments = s :: rest := by
      rw [segments, ofSegments, String.toList_ofList]
      refine Text.split_join (by simp) fun t ht => h t (mem_of_mem_trimVoid ?_)
      rwa [htrim]
    have hvoid := isVoid_of_head_trimVoid htrim
    have hanchor : anchor (s :: rest) = (none, s :: rest) := by
      refine anchor_of_fst_eq_none ?_
      unfold anchor
      split <;> simp_all [isVoid]
    rw [components_eq (by rw [hsegments, hanchor])]
    rfl

/-- Trimmed segments stay as they are. -/
theorem trimVoid_trimVoid (ss : List (List Char)) : trimVoid (trimVoid ss) = trimVoid ss := by
  have hfront : (trimVoid ss).dropWhile isVoid = trimVoid ss := by
    cases htrim : trimVoid ss with
    | nil => rfl
    | cons s rest =>
      rw [List.dropWhile_cons_of_neg]
      simp [isVoid_of_head_trimVoid htrim]
  rw [trimVoid, hfront, trimVoid, dropVoidRight, dropVoidRight, List.reverse_reverse,
    List.dropWhile_idempotent]

/-! ### Dropping segments -/

theorem dropSegments_isSuffix (n : Nat) (ss : List (List Char)) : dropSegments n ss <:+ ss := by
  induction n, ss using dropSegments.induct with
  | case1 ss => simp only [dropSegments, List.suffix_rfl]
  | case2 n => exact List.nil_suffix
  | case3 n s ss hs ih =>
    rw [dropSegments, if_pos hs]
    exact ih.trans (List.suffix_cons ..)
  | case4 n s ss hs ih =>
    rw [dropSegments, if_neg hs]
    exact ih.trans (List.suffix_cons ..)

theorem filterMap_dropSegments (n : Nat) (ss : List (List Char)) :
    (dropSegments n ss).filterMap Component.ofSegment? =
      (ss.filterMap Component.ofSegment?).drop n := by
  induction n, ss using dropSegments.induct with
  | case1 ss => rw [dropSegments, List.drop_zero]
  | case2 n => rfl
  | case3 n s ss hs ih =>
    have hnone : Component.ofSegment? s = none := by simpa [hs] using Component.isSome_ofSegment? s
    rw [dropSegments, if_pos hs, ih, List.filterMap_cons_none hnone]
  | case4 n s ss hs ih =>
    have hsome : (Component.ofSegment? s).isSome := by simp [Component.isSome_ofSegment?, hs]
    obtain ⟨k, hk⟩ := Option.isSome_iff_exists.mp hsome
    rw [dropSegments, if_neg hs, ih, List.filterMap_cons_some hk, List.drop_succ_cons]

theorem slash_not_mem_dropSegments {p : Path} (n : Nat) :
    ∀ s ∈ dropSegments n p.segments, '/' ∉ s := fun _ hs =>
  Text.not_mem_of_mem_split ((dropSegments_isSuffix n p.segments).subset hs)

/-! ### The dot -/

theorem components_dot : (⟨"."⟩ : Path).components = [.current] := by decide

theorem below?_eq_some {base q : Path} (hq : base.components <+: q.components) :
    below? base q = some (q.dropComponents base.components.length) := by
  rw [below?, if_pos (List.isPrefixOf_iff_prefix.mpr hq)]

theorem below?_eq_none {base q : Path} (hq : ¬base.components <+: q.components) :
    below? base q = none := by
  rw [below?, if_neg (mt List.isPrefixOf_iff_prefix.mp hq)]

theorem below?_dot_of_current_not_mem {q : Path} (hq : .current ∉ q.components) :
    below? ⟨"."⟩ q = none := by
  refine below?_eq_none fun hpre => hq (hpre.subset ?_)
  rw [components_dot]
  exact List.mem_singleton_self _

theorem anchor_segments_dotted (p : Path) :
    anchor p.dotted.segments = (some .current, p.segments) := by
  have htext : p.dotted.text.toList = ['.'] ++ '/' :: p.text.toList := by
    rw [dotted, String.toList_append]
    rfl
  rw [segments, htext, Text.split_append_sep]
  rfl

theorem eq_of_toList_text {p q : Path} (h : p.text.toList = q.text.toList) : p = q := by
  cases p
  cases q
  exact congrArg Path.mk (String.toList_inj.mp h)

/-! ### Paths of names -/

section Names

variable {p : Path} (h : p.HasNames)
include h

theorem HasNames.anchor_segments : anchor p.segments = (none, p.segments) := by
  refine anchor_of_fst_eq_none ?_
  cases hanchor : anchor p.segments with
  | mk head rest =>
    have hcomponents := components_eq hanchor
    cases head with
    | none => rfl
    | some k =>
      have hname := h k (by simp [hcomponents])
      unfold anchor at hanchor
      split at hanchor
      · cases hanchor
        simp [Component.isName] at hname
      · cases hanchor
        simp [Component.isName] at hname
      · cases hanchor

theorem HasNames.components_eq : p.components = p.segments.filterMap Component.ofSegment? :=
  Path.components_eq h.anchor_segments

theorem HasNames.current_not_mem : .current ∉ p.components := by
  intro hmem
  simpa [Component.isName] using h _ hmem

/-- A path of names has no void segment in front, but for the one of the empty path. -/
theorem HasNames.trimVoid_segments : trimVoid p.segments = dropVoidRight p.segments := by
  have hanchor := h.anchor_segments
  rw [trimVoid]
  cases hsegments : p.segments with
  | nil => rfl
  | cons s ss =>
    cases hvoid : isVoid s with
    | false => rw [List.dropWhile_cons_of_neg (by simp [hvoid])]
    | true =>
      -- a void segment in front of others, or a lone dot, would have been an anchor
      rw [isVoid, Bool.or_eq_true, decide_eq_true_eq, decide_eq_true_eq] at hvoid
      rcases hvoid with rfl | rfl
      · cases ss with
        | nil => rfl
        | cons s ss => simp [hsegments, anchor] at hanchor
      · simp [hsegments, anchor] at hanchor

theorem HasNames.dropComponents_eq (n : Nat) :
    p.dropComponents n = ofSegments (trimVoid (dropSegments n p.segments)) := by
  cases n with
  | zero =>
    rw [dropComponents, trimRight, h.anchor_segments, dropSegments, h.trimVoid_segments]
  | succ n => rw [dropComponents, h.anchor_segments]

theorem HasNames.components_dropComponents (n : Nat) :
    (p.dropComponents n).components = p.components.drop n := by
  rw [h.dropComponents_eq, components_ofSegments_trimVoid (slash_not_mem_dropSegments n),
    filterMap_dropSegments, h.components_eq]

/-! ### A dot in front of a path -/

theorem HasNames.components_dotted : p.dotted.components = .current :: p.components := by
  rw [Path.components_eq (anchor_segments_dotted p), h.components_eq]
  rfl

theorem HasNames.dropComponents_dotted (n : Nat) :
    p.dotted.dropComponents (n + 1) = p.dropComponents n := by
  rw [dropComponents, anchor_segments_dotted, h.dropComponents_eq]

/-- Without what ends it for nothing, a path with a dot is the dot and the path without that. -/
theorem HasNames.below?_dot_trimRight_dotted :
    below? ⟨"."⟩ p.dotted.trimRight = some (p.dropComponents 0) := by
  have hsegments : p.dotted.trimRight.segments = ['.'] :: dropVoidRight p.segments := by
    have htrim : p.dotted.trimRight = ofSegments (['.'] :: dropVoidRight p.segments) := by
      rw [trimRight, anchor_segments_dotted]
    rw [htrim, segments, ofSegments, String.toList_ofList]
    refine Text.split_join (by simp) fun s hs => ?_
    rcases List.mem_cons.mp hs with rfl | hs
    · simp
    · exact Text.not_mem_of_mem_split ((dropVoidRight_isPrefix _).subset hs)
  have hanchor : anchor p.dotted.trimRight.segments = (some .current, trimVoid p.segments) := by
    rw [hsegments, h.trimVoid_segments]
    rfl
  have hpre : (⟨"."⟩ : Path).components <+: p.dotted.trimRight.components := by
    rw [components_dot, Path.components_eq hanchor]
    exact List.prefix_append ..
  have hdrop : p.dotted.trimRight.dropComponents 1 =
      ofSegments (trimVoid (trimVoid p.segments)) := by
    rw [dropComponents, hanchor]
    simp only [dropSegments]
  rw [below?_eq_some hpre, components_dot, List.length_singleton, hdrop, trimVoid_trimVoid,
    h.dropComponents_eq, dropSegments]

/-! ### Behind the root -/

theorem HasNames.below?_dot_dropComponents (n : Nat) :
    below? ⟨"."⟩ (p.dropComponents n) = none := by
  refine below?_dot_of_current_not_mem ?_
  rw [h.components_dropComponents]
  exact fun hmem => h.current_not_mem (List.mem_of_mem_drop hmem)

theorem HasNames.below?_dot_dotted : below? ⟨"."⟩ p.dotted = some (p.dropComponents 0) := by
  have hpre : (⟨"."⟩ : Path).components <+: p.dotted.components := by
    rw [components_dot, h.components_dotted]
    exact List.prefix_append [Component.current] _
  rw [below?_eq_some hpre, components_dot, List.length_singleton, h.dropComponents_dotted]

/-- A path of names is relative to a root that begins it, or else it stays as it is. -/
theorem HasNames.relativeTo_eq (root : Path) : p.relativeTo root =
    if root.components <+: p.components then p.dropComponents root.components.length else p := by
  split
  · rename_i hpre
    rw [relativeTo, below?_eq_some hpre, Option.getD_some, h.below?_dot_dropComponents,
      Option.getD_none]
  · rename_i hpre
    rw [relativeTo, below?_eq_none hpre, Option.getD_none,
      below?_dot_of_current_not_mem h.current_not_mem, Option.getD_none]

/-- With a dot in front it is relative to a root that has a dot too. -/
theorem HasNames.relativeTo_dotted (root : Path) : p.dotted.relativeTo root =
    p.dropComponents
      (if root.components = .current :: root.steps ∧ root.steps <+: p.components then
        root.steps.length else 0) := by
  rcases components_eq_steps root with hroot | hroot
  · have hnot : ¬(root.components = .current :: root.steps ∧ root.steps <+: p.components) := by
      rintro ⟨hdotted, -⟩
      exact List.cons_ne_self _ _ (hdotted.symm.trans hroot)
    rw [if_neg hnot, relativeTo]
    by_cases hempty : root.components = []
    · have hbelow : below? root p.dotted = some p.dotted.trimRight := by
        rw [below?_eq_some (by rw [hempty]; exact List.nil_prefix), hempty, List.length_nil,
          dropComponents]
      rw [hbelow, Option.getD_some, h.below?_dot_trimRight_dotted, Option.getD_some]
    · -- the root starts with something else than the dot of the path
      have hpre : ¬root.components <+: p.dotted.components := by
        obtain ⟨k, ks, hks⟩ := List.exists_cons_of_ne_nil hempty
        rw [h.components_dotted, hks, List.cons_prefix_cons]
        rintro ⟨rfl, -⟩
        exact current_not_mem_steps root (by rw [← hroot, hks]; exact List.mem_cons_self)
      rw [below?_eq_none hpre, Option.getD_none, h.below?_dot_dotted, Option.getD_some]
  · have hbegins : root.components <+: p.dotted.components ↔ root.steps <+: p.components := by
      rw [h.components_dotted, hroot, List.cons_prefix_cons, and_iff_right rfl]
    rw [relativeTo]
    by_cases hpre : root.steps <+: p.components
    · rw [below?_eq_some (hbegins.mpr hpre), if_pos ⟨hroot, hpre⟩, Option.getD_some, hroot,
        List.length_cons, h.dropComponents_dotted, h.below?_dot_dropComponents, Option.getD_none]
    · rw [below?_eq_none (mt hbegins.mp hpre), if_neg fun hboth => hpre hboth.2,
        Option.getD_none, h.below?_dot_dotted, Option.getD_some]

/-! ### Lengths -/

/-- What ends a path for nothing is taken off its text. -/
theorem HasNames.toList_trimRight_isPrefix : p.trimRight.text.toList <+: p.text.toList := by
  have htrim : p.trimRight = ofSegments (dropVoidRight p.segments) := by
    rw [trimRight, h.anchor_segments]
  rw [htrim, ofSegments, String.toList_ofList, ← Text.join_split '/' p.text.toList]
  exact Text.join_isPrefix ['/'] (dropVoidRight_isPrefix p.segments)

/-- What is left of a path behind its first names ends its text. -/
theorem HasNames.toList_dropComponents_isSuffix (n : Nat) :
    (p.dropComponents n).text.toList <:+ p.trimRight.text.toList := by
  have htrim : p.trimRight = ofSegments (dropVoidRight p.segments) := by
    rw [trimRight, h.anchor_segments]
  rw [htrim, h.dropComponents_eq, ofSegments, ofSegments, String.toList_ofList,
    String.toList_ofList]
  refine Text.join_isSuffix ['/'] (dropVoidRight_isSuffix ?_)
  exact (List.dropWhile_suffix _).trans (dropSegments_isSuffix n p.segments)

theorem HasNames.length_trimRight_lt (hne : p.trimRight ≠ p) :
    p.trimRight.text.toList.length < p.text.toList.length := by
  have hpre := h.toList_trimRight_isPrefix
  refine lt_of_le_of_ne hpre.length_le fun hlength => hne ?_
  exact eq_of_toList_text (hpre.eq_of_length hlength)

/-- Behind some of its names a path is shorter. -/
theorem HasNames.length_dropComponents_lt {n : Nat} (hn : 0 < n) (hle : n ≤ p.components.length) :
    (p.dropComponents n).text.toList.length < p.trimRight.text.toList.length := by
  have hsuffix := h.toList_dropComponents_isSuffix n
  refine lt_of_le_of_ne hsuffix.length_le fun hlength => ?_
  have hsame : p.dropComponents n = p.dropComponents 0 :=
    eq_of_toList_text (hsuffix.eq_of_length hlength)
  have hcount := congrArg (fun q : Path => q.components.length) hsame
  simp only [h.components_dropComponents, List.length_drop] at hcount
  omega

variable {root : Path}

/-- Where the root does not lie above the path, both spellings stay as they are, up to what ends
them for nothing. -/
theorem HasNames.relativeTo_of_not_liesAbove (habove : ¬root.LiesAbove p) :
    p.dotted.relativeTo root = p.trimRight ∧
      p.relativeTo root = if root.components = [] then p.trimRight else p := by
  have hsteps : root.steps <+: p.components → root.steps = [] := fun hpre =>
    by_contra fun hne => habove ⟨hne, hpre⟩
  constructor
  · rw [h.relativeTo_dotted]
    split
    · rename_i hroot
      rw [hsteps hroot.2]
      rfl
    · rfl
  · rw [h.relativeTo_eq]
    by_cases hempty : root.components = []
    · rw [if_pos hempty, hempty, if_pos List.nil_prefix]
      rfl
    · have hpre : ¬root.components <+: p.components := by
        intro hpre
        rcases components_eq_steps root with hroot | hroot
        · exact hempty (hroot.trans (hsteps (hroot ▸ hpre)))
        · exact h.current_not_mem (hpre.subset (by simp [hroot]))
      rw [if_neg hempty, if_neg hpre]

/-- Where it does, it is taken off only the spelling that is like its own. -/
theorem HasNames.length_relativeTo_ne (habove : root.LiesAbove p) :
    (p.dotted.relativeTo root).text.toList.length ≠ (p.relativeTo root).text.toList.length := by
  obtain ⟨hne, hpre⟩ := habove
  have hshorter := h.length_dropComponents_lt (List.length_pos_iff.mpr hne) hpre.length_le
  have htrim := h.toList_trimRight_isPrefix.length_le
  rw [h.relativeTo_dotted, h.relativeTo_eq]
  rcases components_eq_steps root with hroot | hroot
  · have hnot : ¬(root.components = .current :: root.steps ∧ root.steps <+: p.components) := by
      rintro ⟨hdotted, -⟩
      exact List.cons_ne_self _ _ (hdotted.symm.trans hroot)
    rw [if_neg hnot, hroot, if_pos hpre]
    exact Nat.ne_of_gt hshorter
  · have hnot : ¬root.components <+: p.components := fun hbegins =>
      h.current_not_mem (hbegins.subset (by simp [hroot]))
    rw [if_pos ⟨hroot, hpre⟩, if_neg hnot]
    exact Nat.ne_of_lt (hshorter.trans_le htrim)

end Names

end QualityGate.Path
