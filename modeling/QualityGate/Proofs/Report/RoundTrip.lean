import Mathlib.Data.List.Nodup
import QualityGate.Command.Rendering
import QualityGate.Proofs.Json.RoundTrip

/-! Reports through JSON. A report whose numbers fit into words is read back from its text as
it was. Reading a violation does not mind members that it does not know, nor the missing ones
that may be missing when they are written as null. -/
namespace QualityGate

open Json (Value)

/-! ### Members -/

namespace Decode

variable {α : Type} {read : Value → Option α} {key : String} {ms : List (String × Value)}

@[simp] theorem occurrences_nil : occurrences key [] = [] := rfl

@[simp] theorem occurrences_cons (m : String × Value) : occurrences key (m :: ms) =
    if m.1 = key then m.2 :: occurrences key ms else occurrences key ms := by
  unfold occurrences
  split_ifs with h <;> simp [h]

@[simp] theorem occurrences_append (ms' : List (String × Value)) :
    occurrences key (ms ++ ms') = occurrences key ms ++ occurrences key ms' :=
  List.filterMap_append

@[simp] theorem occurrences_optionalMember (key' : String) (f : α → Value) (o : Option α) :
    occurrences key (optionalMember key' f o) = if key' = key then (o.map f).toList else [] := by
  cases o <;> simp [optionalMember]

/-! ### Values of the parts -/

theorem nat_nat {n : Nat} (h : Text.fitsUnsigned n) : nat (.nat n) = some n := by
  show (if Text.fitsUnsigned n then some n else none) = _
  rw [if_pos h]

theorem nullable_of_read {v : Value} {a : α} (hread : read v = some a)
    (hnull : read .null = none) : nullable read v = some (some a) := by
  cases v with
  | null => simp [hnull] at hread
  | _ => simp [nullable, hread]

/-- A value that may be null is read as one that may be absent. -/
theorem nullable_ofOption {f : α → Value} {o : Option α} (hread : ∀ a ∈ o, read (f a) = some a)
    (hnull : read .null = none) : nullable read (.ofOption f o) = some o := by
  cases o with
  | none => rfl
  | some a => exact nullable_of_read (hread a rfl) hnull

/-- A member that is there only with a value is read as that value or none. -/
theorem withDefault_optional {f : α → Value} {o : Option α}
    (h : occurrences key ms = (o.map f).toList) (hread : ∀ a ∈ o, read (f a) = some a)
    (hnull : read .null = none) : withDefault none (nullable read) ms key = some o := by
  cases o with
  | none => simp [withDefault, member?, h]
  | some a => simp [withDefault, member?, h, nullable_of_read (hread a rfl) hnull]

/-- A list is read item by item. -/
theorem mapM_map {β : Type} {f : α → β} {g : β → Option α} {xs : List α}
    (h : ∀ x ∈ xs, g (f x) = some x) : (xs.map f).mapM g = some xs := by
  induction xs with
  | nil => rfl
  | cons x xs ih =>
    rw [List.map_cons, List.mapM_cons, h x List.mem_cons_self,
      ih fun y hy => h y (List.mem_cons_of_mem _ hy)]
    rfl

theorem list_ofList {f : α → Value} {xs : List α} (h : ∀ x ∈ xs, read (f x) = some x) :
    list read (.ofList f xs) = some xs :=
  mapM_map h

end Decode

/-! ### Counts -/

/-- Whether counts are those of a sorted map to words: each key at most once, in the order of
all keys. -/
structure IsBreakdown {κ : Type} (keys : List κ) (counts : List (κ × Nat)) : Prop where
  ordered : (counts.map Prod.fst).Sublist keys
  fits : ∀ c ∈ counts, Text.fitsUnsigned c.2

section Breakdown

variable {κ : Type} {keys : List κ} {counts : List (κ × Nat)}

/-- Looking up each key gives the counts back, in order. -/
theorem filterMap_eq_of_find {find : κ → Option Nat} (hkeys : keys.Nodup)
    (hordered : (counts.map Prod.fst).Sublist keys)
    (hfind : ∀ k ∈ keys, ∀ n, find k = some n ↔ (k, n) ∈ counts) :
    (keys.filterMap fun k => (find k).map (k, ·)) = counts := by
  induction keys generalizing counts with
  | nil => exact (List.map_eq_nil_iff.mp (List.sublist_nil.mp hordered)).symm
  | cons k keys ih =>
    obtain ⟨hk, hnodup⟩ := List.nodup_cons.mp hkeys
    rcases List.sublist_cons_iff.mp hordered with hordered | ⟨ks, hcounts, hordered⟩
    · have hnone : find k = none := Option.eq_none_iff_forall_ne_some.mpr fun n hn =>
        hk (hordered.subset (List.mem_map_of_mem ((hfind k List.mem_cons_self n).mp hn)))
      rw [List.filterMap_cons, hnone]
      exact ih hnodup hordered fun k' hk' => hfind k' (List.mem_cons_of_mem _ hk')
    · obtain ⟨⟨k, n⟩, counts, rfl, rfl, rfl⟩ := List.map_eq_cons_iff.mp hcounts
      have hsome : find k = some n := (hfind k List.mem_cons_self n).mpr List.mem_cons_self
      rw [List.filterMap_cons, hsome]
      refine congrArg _ (ih hnodup hordered fun k' hk' n' => ?_)
      have hne : k' ≠ k := fun heq => hk (heq ▸ hk')
      rw [hfind k' (List.mem_cons_of_mem _ hk') n']
      simp [hne]

theorem lookup_eq_some_iff_mem [DecidableEq κ] (hnodup : (counts.map Prod.fst).Nodup) (k : κ)
    (n : Nat) : counts.lookup k = some n ↔ (k, n) ∈ counts := by
  induction counts with
  | nil => simp
  | cons c counts ih =>
    obtain ⟨k', n'⟩ := c
    obtain ⟨hk', hnodup⟩ := List.nodup_cons.mp hnodup
    by_cases hk : k = k'
    · subst k'
      have hnot : (k, n) ∉ counts := fun hmem =>
        hk' (List.mem_map.mpr ⟨_, hmem, rfl⟩)
      rw [List.lookup_cons_self]
      simp [hnot, eq_comm]
    · have hbeq : (k == k') = false := by simpa using hk
      rw [List.lookup_cons, hbeq, ih hnodup]
      simp [hk]

variable [DecidableEq κ] {name : κ → String} {ofName? : String → Option κ}

/-- Counts are read back. -/
theorem breakdown_breakdownToJson (hkeys : keys.Nodup) (hname : ∀ k, ofName? (name k) = some k)
    (h : IsBreakdown keys counts) :
    Decode.breakdown keys ofName? (breakdownToJson name counts) = some counts := by
  have hnodup : (counts.reverse.map Prod.fst).Nodup := by
    rw [List.map_reverse]
    exact List.nodup_reverse.mpr (hkeys.sublist h.ordered)
  have hread : ((counts.map fun c => (name c.1, Value.nat c.2)).mapM fun m => do
      return (← ofName? m.1, ← Decode.nat m.2)) = some counts :=
    Decode.mapM_map fun c hc => by simp [hname, Decode.nat_nat (h.fits c hc)]
  have hfind : ∀ k ∈ keys, ∀ n, counts.reverse.lookup k = some n ↔ (k, n) ∈ counts := by
    intro k _ n
    rw [lookup_eq_some_iff_mem hnodup, List.mem_reverse]
  show ((counts.map fun c => (name c.1, Value.nat c.2)).mapM _ >>= _) = _
  rw [hread]
  exact congrArg some (filterMap_eq_of_find hkeys h.ordered hfind)

end Breakdown

/-! ### Records -/

/-- Whether the numbers of a violation fit into words. -/
structure Violation.Fits (v : Violation) : Prop where
  line : Text.fitsUnsigned v.line
  value : ∀ n ∈ v.value, Text.fitsUnsigned n
  threshold : ∀ n ∈ v.threshold, Text.fitsUnsigned n

/-- Whether the counts of a summary fit into words and its breakdowns are sorted. -/
structure Summary.Fits (s : Summary) : Prop where
  filesAnalyzed : Text.fitsUnsigned s.filesAnalyzed
  filesSkipped : Text.fitsUnsigned s.filesSkipped
  errors : Text.fitsUnsigned s.errors
  warnings : Text.fitsUnsigned s.warnings
  coreViolations : Text.fitsUnsigned s.coreViolations
  shellWarnings : Text.fitsUnsigned s.shellWarnings
  byKind : IsBreakdown Kind.all s.byKind
  byFamily : IsBreakdown Family.all s.byFamily
  byPrinciple : IsBreakdown Principle.all s.byPrinciple

/-- Whether all numbers of a report fit into words. -/
structure Report.Fits (r : Report) : Prop where
  violations : ∀ v ∈ r.violations, v.Fits
  summary : r.summary.Fits

theorem Text.fitsUnsigned_of_le {m n : Nat} (hn : fitsUnsigned n) (h : m ≤ n) :
    fitsUnsigned m := by
  simp only [fitsUnsigned, decide_eq_true_eq] at hn ⊢
  exact lt_of_le_of_lt h hn

theorem isBreakdown_tally {κ : Type} [DecidableEq κ] {n : Nat} (hn : Text.fitsUnsigned n)
    (keys xs : List κ) (h : xs.length ≤ n) : IsBreakdown keys (tally keys xs) where
  ordered := by
    have hkeys : (keys.map fun k => (k, xs.count k)).map Prod.fst = keys := by
      simp [Function.comp_def]
    have hsub : (tally keys xs).Sublist (keys.map fun k => (k, xs.count k)) :=
      List.filter_sublist
    simpa [hkeys] using hsub.map Prod.fst
  fits c hc := by
    obtain ⟨k, -, rfl⟩ := List.mem_map.mp (List.mem_of_mem_filter hc)
    exact Text.fitsUnsigned_of_le hn (le_trans List.count_le_length h)

/-- The report on violations that fit, and on no more files and violations than a word counts. -/
theorem Report.fits_ofViolations {vs : List Violation} {filesAnalyzed filesSkipped : Nat}
    (strict : Bool) (hvs : ∀ v ∈ vs, v.Fits) (hlength : Text.fitsUnsigned vs.length)
    (hanalyzed : Text.fitsUnsigned filesAnalyzed) (hskipped : Text.fitsUnsigned filesSkipped) :
    (ofViolations vs filesAnalyzed filesSkipped strict).Fits where
  violations := hvs
  summary :=
    { filesAnalyzed := hanalyzed
      filesSkipped := hskipped
      errors := Text.fitsUnsigned_of_le hlength List.countP_le_length
      warnings := Text.fitsUnsigned_of_le hlength List.countP_le_length
      coreViolations := Text.fitsUnsigned_of_le hlength List.countP_le_length
      shellWarnings := Text.fitsUnsigned_of_le hlength List.countP_le_length
      byKind := isBreakdown_tally hlength _ _ (List.length_map _).le
      byFamily := isBreakdown_tally hlength _ _ (List.length_map _).le
      byPrinciple := isBreakdown_tally hlength _ _ (List.length_filterMap_le _ _) }

/-! ### Reading the records -/

open Decode

theorem Severity.ofName?_name (s : Severity) : ofName? s.name = some s := by cases s <;> decide

theorem Tag.ofName?_name (t : Tag) : ofName? t.name = some t := by cases t <;> decide

theorem Principle.ofName?_name (p : Principle) : ofName? p.name = some p := by
  cases p <;> decide

theorem Violation.ofJson_toJson {v : Violation} (h : v.Fits) : ofJson v.toJson = some v := by
  have hfunction : withDefault none (nullable string) v.members "function" = some v.function := by
    have hread : nullable string (.ofOption .string v.function) = some v.function :=
      nullable_ofOption (fun _ _ => rfl) rfl
    simpa [withDefault, member?, members] using hread
  have hvalue : withDefault none (nullable nat) v.members "value" = some v.value :=
    withDefault_optional (f := .nat) (by simp [members]) (fun n hn => nat_nat (h.value n hn)) rfl
  have hthreshold : withDefault none (nullable nat) v.members "threshold" = some v.threshold :=
    withDefault_optional (f := .nat) (by simp [members]) (fun n hn => nat_nat (h.threshold n hn)) rfl
  have hmessage : withDefault none (nullable string) v.members "message" = some v.message :=
    withDefault_optional (f := .string) (by simp [members]) (fun _ _ => rfl) rfl
  show ofMembers v.members = some v
  rw [ofMembers, hfunction, hvalue, hthreshold, hmessage]
  simp [required, withDefault, member?, members, nat_nat h.line, string, named,
    Kind.ofName?_name, Severity.ofName?_name, Tag.ofName?_name]

theorem Summary.ofJson_toJson {s : Summary} (h : s.Fits) : ofJson s.toJson = some s := by
  have hkind := breakdown_breakdownToJson (by decide) Kind.ofName?_name h.byKind
  have hfamily := breakdown_breakdownToJson (by decide) Family.ofName?_name h.byFamily
  have hprinciple := breakdown_breakdownToJson (by decide) Principle.ofName?_name h.byPrinciple
  simp [toJson, members, ofJson, required, member?, Decode.bool, nat_nat, h.filesAnalyzed,
    h.filesSkipped, h.errors, h.warnings, h.coreViolations, h.shellWarnings, hkind, hfamily,
    hprinciple]

theorem Report.ofJson_toJson {r : Report} (h : r.Fits) : ofJson r.toJson = some r := by
  have hviolations : list Violation.ofJson (.ofList Violation.toJson r.violations) =
      some r.violations :=
    list_ofList fun v hv => Violation.ofJson_toJson (h.violations v hv)
  have hrecommendations : list string (.ofList .string r.recommendations) =
      some r.recommendations :=
    list_ofList fun _ _ => rfl
  simp [toJson, members, ofJson, required, withDefault, member?, Decode.bool, string, hviolations,
    Summary.ofJson_toJson h.summary, hrecommendations]

/-! ### Texts -/

theorem isPlain_of_mem_optionalMember {α : Type} {n : Nat} {key : String} {f : α → Value}
    {o : Option α} (hf : ∀ a, (f a).isPlain n) : ∀ m ∈ optionalMember key f o, m.2.isPlain n := by
  cases o <;> simp [optionalMember, hf]

theorem Violation.isPlain_toJson (n : Nat) (v : Violation) : v.toJson.isPlain (n + 1) := by
  have hfunction : (Value.ofOption .string v.function).isPlain n := by
    cases v.function <;> simp [Value.ofOption]
  simp only [toJson, members, Value.isPlain, List.all_append, List.all_eq_true, Bool.and_eq_true]
  refine ⟨⟨⟨⟨?_, isPlain_of_mem_optionalMember (Value.isPlain_nat n)⟩,
    isPlain_of_mem_optionalMember (Value.isPlain_nat n)⟩,
    isPlain_of_mem_optionalMember (Value.isPlain_string n)⟩, ?_⟩ <;> simp [hfunction]

theorem isPlain_breakdownToJson {κ : Type} (n : Nat) (name : κ → String)
    (counts : List (κ × Nat)) : (breakdownToJson name counts).isPlain (n + 1) := by
  simp [breakdownToJson, Value.isPlain]

theorem Report.isPlain_toJson (n : Nat) (r : Report) : r.toJson.isPlain (n + 3) := by
  simp [toJson, members, Summary.toJson, Summary.members, Value.ofList, Value.isPlain,
    isPlain_breakdownToJson, Violation.isPlain_toJson]

theorem Report.parse_render (r : Report) :
    Json.parse (Command.render r .json) = some r.toJson := by
  have htext : Command.render r .json = r.toJson.pretty ++ "\n" := by
    simp [Command.render, Command.lines]
  rw [htext, Json.parse_pretty (isPlain_toJson 124 r)]

/-! ### Members that do not matter -/

namespace Violation

/-- The keys of a violation that may be missing and then name nothing. -/
def optionalKeys : List String := ["function", "value", "threshold", "message"]

/-- Whether members say the same of a violation in more words: members with keys that it does
not have, and nulls for optional members that were missing. -/
inductive Elaborates (ms : List (String × Value)) : List (String × Value) → Prop
  | refl : Elaborates ms ms
  | unknown {before after : List (String × Value)} {key : String} (v : Value)
      (h : Elaborates ms (before ++ after)) (hkey : key ∉ keys) :
      Elaborates ms (before ++ (key, v) :: after)
  | null {before after : List (String × Value)} {key : String}
      (h : Elaborates ms (before ++ after)) (hkey : key ∈ optionalKeys)
      (hmissing : ∀ m ∈ before ++ after, m.1 ≠ key) :
      Elaborates ms (before ++ (key, .null) :: after)

variable {ms ms' : List (String × Value)}

/-- What a key of a violation names stays the same, null for nothing apart. -/
theorem Elaborates.occurrences (h : Elaborates ms ms') {key : String} (hkey : key ∈ keys) :
    occurrences key ms' = occurrences key ms ∨
      key ∈ optionalKeys ∧ occurrences key ms = [] ∧ occurrences key ms' = [.null] := by
  induction h with
  | refl => exact .inl rfl
  | @unknown before after other v _ hother ih =>
    have hne : other ≠ key := fun heq => hother (heq ▸ hkey)
    simpa [hne] using ih
  | @null before after other _ hother hmissing ih =>
    by_cases heq : other = key
    · subst other
      have habsent : ∀ part, part ⊆ before ++ after → Decode.occurrences key part = [] := by
        intro part hpart
        rw [Decode.occurrences, List.filterMap_eq_nil_iff]
        exact fun m hm => if_neg (hmissing m (hpart hm))
      have hbefore := habsent before (List.subset_append_left _ _)
      have hafter := habsent after (List.subset_append_right _ _)
      have hms : Decode.occurrences key ms = [] := by
        rcases ih with heq | ⟨-, hms, -⟩
        · rw [← heq, occurrences_append, hbefore, hafter, List.append_nil]
        · exact hms
      exact .inr ⟨hother, hms, by simp [hbefore, hafter]⟩
    · simpa [heq] using ih

/-- A violation is the same in more words. -/
theorem Elaborates.ofMembers_eq (h : Elaborates ms ms') : ofMembers ms' = ofMembers ms := by
  have hfixed : ∀ key ∈ keys, key ∉ optionalKeys → member? ms' key = member? ms key := by
    intro key hkey hfixed
    rcases h.occurrences hkey with heq | ⟨hoptional, -, -⟩
    · rw [member?, member?, heq]
    · exact absurd hoptional hfixed
  have hrequired : ∀ {α : Type} (read : Value → Option α), ∀ key ∈ keys, key ∉ optionalKeys →
      required read ms' key = required read ms key := by
    intro α read key hkey hkey'
    rw [required, required, hfixed key hkey hkey']
  have hcontext : withDefault "" string ms' "context" = withDefault "" string ms "context" := by
    rw [withDefault, withDefault, hfixed "context" (by decide) (by decide)]
  have hoptional : ∀ {α : Type} (read : Value → Option α), ∀ key ∈ keys,
      withDefault none (nullable read) ms' key = withDefault none (nullable read) ms key := by
    intro α read key hkey
    rcases h.occurrences hkey with heq | ⟨-, hms, hms'⟩
    · rw [withDefault, withDefault, member?, member?, heq]
    · simp [withDefault, member?, hms, hms', nullable]
  rw [ofMembers, ofMembers]
  rw [hrequired string "file" (by decide) (by decide), hrequired nat "line" (by decide) (by decide),
    hrequired (named Kind.ofName?) "violation_type" (by decide) (by decide),
    hrequired (named Severity.ofName?) "severity" (by decide) (by decide),
    hrequired string "rule" (by decide) (by decide),
    hrequired (named Tag.ofName?) "scope" (by decide) (by decide), hcontext,
    hoptional string "function" (by decide), hoptional nat "value" (by decide),
    hoptional nat "threshold" (by decide), hoptional string "message" (by decide)]

end Violation

namespace Report

/-- A report is read back from what is printed for it, and a violation as the same from members
that say it in more words. -/
theorem ofJson_parse_render :
    (∀ r : Report, r.Fits → (Json.parse (Command.render r .json)).bind ofJson = some r) ∧
      ∀ (v : Violation) (ms ms' : List (String × Value)), Violation.Elaborates ms ms' →
        Violation.ofJson (.object ms) = some v → Violation.ofJson (.object ms') = some v := by
  constructor
  · intro r hr
    rw [parse_render]
    exact ofJson_toJson hr
  · intro v ms ms' h hv
    exact h.ofMembers_eq.trans hv

/-- A metric without a message beside a finding without a measure, and the members of the
former with a null for its message and a member of another program. -/
theorem ofJson_parse_render_sample :
    let long : Violation :=
      { file := ⟨"src/über.py"⟩, function := some "f", line := 3, kind := .length
        severity := .error, value := some 61, threshold := some 60, rule := "complexity" }
    let bare : Violation :=
      { file := ⟨"a.py"⟩, line := 1, kind := .bareExcept, severity := .warning
        message := some "say \"what\"\n", context := "<module>", rule := "error-handling"
        scope := .shell }
    let r := ofViolations [long, bare] 2 0 true
    let ms' := ("column", .array [.null, .decimal "0.5"]) :: long.members ++ [("message", .null)]
    (Json.parse (Command.render r .json)).bind ofJson = some r ∧
      Violation.ofJson (.object ms') = some long := by
  intro long bare r ms'
  have hlong : long.Fits := ⟨by decide, by decide, by decide⟩
  have hbare : bare.Fits := ⟨by decide, by decide, by decide⟩
  have hr : r.Fits := by
    refine fits_ofViolations true ?_ (by decide) (by decide) (by decide)
    simpa using ⟨hlong, hbare⟩
  have hnull : Violation.Elaborates long.members (long.members ++ [("message", .null)]) :=
    .null (by rw [List.append_nil]; exact .refl) (by decide) (by decide)
  have hms : Violation.Elaborates long.members ([] ++ ms') := .unknown _ hnull (by decide)
  exact ⟨ofJson_parse_render.1 r hr,
    ofJson_parse_render.2 long long.members ms' hms (Violation.ofJson_toJson hlong)⟩

end Report

end QualityGate
