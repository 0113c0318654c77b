import QualityGate.Command.Arguments
import QualityGate.Proofs.Text.Writing

/-! Limits on a command line. Behind any command line for a check that sets no limit and where the
switches have not ended, the flags of limits ask for the same check with these limits. -/
namespace QualityGate.Command

/-! ### Readings in progress -/

namespace Reading

/-- Switches may still follow, and those that were read have values that they accept. -/
structure Open (r : Reading) : Prop where
  accepted : ∀ g ∈ r.given, g.switch.accepts g.value
  going : r.switchesEnded = false

/-- A step keeps a reading open, or ends it without a request. -/
def Step.Sound : Step → Prop
  | .ok r => r.Open
  | .error e => ∀ config request, e ≠ .run config request

variable {r : Reading}

theorem sound_invalid : Step.Sound (.error .invalid) := by
  intro config request heq
  cases heq

theorem sound_give (h : r.Open) (s : Switch) (value : String) : (r.give s value).Sound := by
  unfold give
  split
  · intro config request heq
    cases heq
  · intro config request heq
    cases heq
  · dsimp only
    split_ifs with hrefused
    · exact sound_invalid
    · refine ⟨fun g hg => ?_, h.going⟩
      rcases List.mem_append.mp hg with hg | hg
      · exact h.accepted g hg
      · obtain rfl := List.mem_singleton.mp hg
        simp only [Bool.or_eq_true, Bool.not_eq_true', not_or, Bool.not_eq_false] at hrefused
        exact hrefused.2

theorem sound_long (h : r.Open) (body : List Char) : (r.long body).Sound := by
  unfold long
  dsimp only
  split
  · exact sound_invalid
  · split_ifs
    · exact sound_give h ..
    · exact ⟨h.accepted, h.going⟩
    · exact sound_invalid
    · exact sound_give h ..

theorem sound_letters (h : r.Open) (cs : List Char) : (r.letters cs).Sound := by
  induction cs generalizing r with
  | nil => exact h
  | cons c cs ih =>
    unfold letters
    split
    · exact sound_invalid
    · next s _ =>
      split_ifs
      · exact ⟨h.accepted, h.going⟩
      · exact sound_give h ..
      · exact sound_give h ..
      · have hgive := sound_give h s ""
        cases hnext : r.give s "" with
        | error e =>
          rw [hnext] at hgive
          exact hgive
        | ok r' =>
          rw [hnext] at hgive
          exact ih hgive

theorem sound_word (h : r.Open) (argument : String) : (r.word argument).Sound := by
  unfold word
  split
  · split
    · split_ifs
      · exact sound_invalid
      · exact ⟨h.accepted, h.going⟩
    · exact sound_invalid
  · split_ifs
    · exact ⟨h.accepted, h.going⟩
    · exact sound_invalid
  · split_ifs
    · exact ⟨h.accepted, h.going⟩
    · exact sound_invalid
  · exact sound_invalid
  · exact sound_invalid

theorem sound_step (h : r.Open) {argument : String} (hdashes : argument ≠ "--") :
    (r.step argument).Sound := by
  unfold step
  dsimp only
  split
  · split_ifs
    · exact sound_give h ..
    · exact sound_invalid
  · rw [h.going, if_neg Bool.false_ne_true]
    split
    · next hcs => exact absurd (String.toList_inj.mp hcs) hdashes
    · exact sound_long h _
    · exact sound_letters h _
    · exact sound_word h _

/-- Reading goes on until it ends, and only two dashes end the switches. -/
theorem sound_foldlM (h : r.Open) {arguments : List String} (hdashes : "--" ∉ arguments) :
    Step.Sound (arguments.foldlM step r) := by
  induction arguments generalizing r with
  | nil => exact h
  | cons argument arguments ih =>
    rw [List.mem_cons, not_or] at hdashes
    have hstep := sound_step h (Ne.symm hdashes.1)
    rw [List.foldlM_cons]
    cases hnext : r.step argument with
    | error e =>
      rw [hnext] at hstep
      exact hstep
    | ok r' =>
      rw [hnext] at hstep
      exact ih hstep hdashes.2

end Reading

/-! ### Flags of limits -/

def limitFlag (l : Limit) (v : Int) : String := "--" ++ (Switch.limit l).long ++ "=" ++ toString v

/-- The flags that set the limits of a table, in their order. -/
def limitFlags (o : Overrides) : List String :=
  Limit.all.filterMap fun l => (o.get l).map (limitFlag l)

/-- What is read of a flag that sets a limit. -/
def givenLimit (l : Limit) (v : Int) : Given := ⟨.check, .limit l, toString v⟩

def givenLimits (o : Overrides) : List Given :=
  Limit.all.filterMap fun l => (o.get l).map (givenLimit l)

theorem mem_givenLimits {o : Overrides} {g : Given} :
    g ∈ givenLimits o ↔ ∃ l v, o.get l = some v ∧ givenLimit l v = g := by
  simp only [givenLimits, List.mem_filterMap, Limit.mem_all, true_and, Option.map_eq_some_iff]

theorem switch_ne_of_mem_givenLimits {o : Overrides} {s : Switch} (hs : ∀ l, s ≠ .limit l) :
    ∀ g ∈ givenLimits o, g.switch ≠ s := by
  intro g hg
  obtain ⟨l, v, -, rfl⟩ := mem_givenLimits.mp hg
  exact Ne.symm (hs l)

/-- A number is read as that number. -/
theorem readInteger?_toString {n : Int} (h : Text.fitsSigned n) :
    readInteger? (toString n) = some n := by
  have hdigits (m : Nat) : ((Nat.toDigits 10 m).isEmpty || !(Nat.toDigits 10 m).all Text.isDigit) =
      false := by
    have hall : (Nat.toDigits 10 m).all Text.isDigit :=
      List.all_eq_true.mpr fun c hc => Text.isDigit_of_mem_toDigits hc
    have hne : Nat.toDigits 10 m ≠ [] := Nat.toDigits_ne_nil
    simp [hall, hne]
  unfold readInteger?
  rw [Text.toList_toString]
  split_ifs with hsign
  · have hn : -(n.natAbs : Int) = n := by omega
    simp only [hdigits, Text.numeral_toDigits, Bool.false_eq_true, if_false, Option.bind_some, hn,
      if_pos h]
  · have hn : (n.natAbs : Int) = n := by omega
    -- digits do not begin with a sign
    have hsigns {c : Char} {cs : List Char} (heq : Nat.toDigits 10 n.natAbs = c :: cs) :
        Text.isDigit c := Text.isDigit_of_mem_toDigits (heq ▸ List.mem_cons_self)
    split
    · next heq => exact absurd (hsigns heq) (by decide)
    · next heq => exact absurd (hsigns heq) (by decide)
    · simp only [hdigits, Text.numeral_toDigits, Bool.false_eq_true, if_false, Option.bind_some, hn,
        if_pos h]

/-- Among the switches of a check, a limit is the only one of its name. -/
theorem find?_limit (l : Limit) :
    (Switch.knownTo .check).find? (fun s => s.long.toList = (Switch.limit l).long.toList) =
      some (.limit l) := by
  have hall : ∀ l ∈ Limit.all, (Switch.knownTo .check).find?
      (fun s => s.long.toList = (Switch.limit l).long.toList) = some (.limit l) := by
    decide +kernel
  exact hall l (Limit.mem_all l)

theorem equals_not_mem_long (l : Limit) : '=' ∉ (Switch.limit l).long.toList := by
  cases l <;> decide +kernel

theorem toList_limitFlag (l : Limit) (v : Int) : (limitFlag l v).toList =
    '-' :: '-' :: ((Switch.limit l).long.toList ++ '=' :: (toString v).toList) := by
  simp [limitFlag]

namespace Reading

variable {r : Reading}

/-- A long form is known by its name, whatever the value behind it. -/
theorem long_limit {l : Limit} (hverb : r.verb = .check) (value : List Char) :
    r.long ((Switch.limit l).long.toList ++ '=' :: value) =
      r.give (.limit l) (String.ofList value) := by
  have hname : ∀ c ∈ (Switch.limit l).long.toList, (c != '=') = true := by
    intro c hc
    rw [bne_iff_ne]
    exact fun heq => equals_not_mem_long l (heq ▸ hc)
  unfold long
  dsimp only
  rw [List.takeWhile_append_of_pos hname, List.dropWhile_append_of_pos hname]
  simp [hverb, find?_limit, Switch.takesValue]

theorem give_limit {l : Limit} {v : Int} (hverb : r.verb = .check)
    (hnew : ∀ g ∈ r.given, g.switch ≠ .limit l) (hfits : Text.fitsSigned v) :
    r.give (.limit l) (toString v) =
      .ok { r with pending := none, given := r.given ++ [givenLimit l v] } := by
  have hfirst : (r.given.any fun g => g.verb = r.verb && g.switch = .limit l) = false := by
    rw [List.any_eq_false]
    intro g hg
    simp [hnew g hg]
  have haccepted : (Switch.limit l).accepts (toString v) = true := by
    rw [Switch.accepts, readInteger?_toString hfits]
    rfl
  unfold give
  dsimp only
  rw [hfirst, haccepted, Bool.false_and, Bool.not_true, Bool.false_or, if_neg Bool.false_ne_true,
    givenLimit, hverb]

/-- A flag sets a limit that is not set yet. -/
theorem step_limitFlag {l : Limit} {v : Int} (hgoing : r.switchesEnded = false)
    (hverb : r.verb = .check) (hpending : r.pending = none)
    (hnew : ∀ g ∈ r.given, g.switch ≠ .limit l) (hfits : Text.fitsSigned v) :
    r.step (limitFlag l v) = .ok { r with given := r.given ++ [givenLimit l v] } := by
  have hlong : r.long ((Switch.limit l).long.toList ++ '=' :: (toString v).toList) =
      .ok { r with pending := none, given := r.given ++ [givenLimit l v] } := by
    rw [long_limit hverb, String.ofList_toList, give_limit hverb hnew hfits]
  unfold step
  dsimp only
  rw [hpending, hgoing, toList_limitFlag]
  cases hbody : (Switch.limit l).long.toList ++ '=' :: (toString v).toList with
  | nil => simp at hbody
  | cons c body =>
    rw [hbody, hgoing] at hlong
    exact hlong

/-- Flags set limits that are not set yet, each one once. -/
theorem foldlM_limitFlags {o : Overrides} {ls : List Limit} (hgoing : r.switchesEnded = false)
    (hverb : r.verb = .check) (hpending : r.pending = none) (hnodup : ls.Nodup)
    (hnew : ∀ g ∈ r.given, ∀ l ∈ ls, g.switch ≠ .limit l)
    (hfits : ∀ l v, o.get l = some v → Text.fitsSigned v) :
    (ls.filterMap fun l => (o.get l).map (limitFlag l)).foldlM step r =
      .ok { r with given := r.given ++ ls.filterMap fun l => (o.get l).map (givenLimit l) } := by
  induction ls generalizing r with
  | nil => simp [pure, Except.pure]
  | cons l ls ih =>
    obtain ⟨hl, hnodup⟩ := List.nodup_cons.mp hnodup
    cases hwritten : o.get l with
    | none =>
      simp only [List.filterMap_cons, hwritten, Option.map_none]
      exact ih hgoing hverb hpending hnodup fun g hg l' hl' =>
        hnew g hg l' (List.mem_cons_of_mem _ hl')
    | some v =>
      have hstep := step_limitFlag hgoing hverb hpending
        (fun g hg => hnew g hg l List.mem_cons_self) (hfits l v hwritten)
      have hnext : ∀ g ∈ r.given ++ [givenLimit l v], ∀ l' ∈ ls, g.switch ≠ .limit l' := by
        intro g hg l' hl'
        rcases List.mem_append.mp hg with hg | hg
        · exact hnew g hg l' (List.mem_cons_of_mem _ hl')
        · obtain rfl := List.mem_singleton.mp hg
          intro heq
          obtain rfl := Switch.limit.inj heq
          exact hl hl'
      have hrest := ih (r := { r with given := r.given ++ [givenLimit l v] }) hgoing hverb hpending
        hnodup hnext
      rw [List.append_assoc] at hrest
      simp only [List.filterMap_cons, hwritten, Option.map_some, List.foldlM_cons, hstep]
      exact hrest

/-- The reading with the flags of a table behind it. -/
def withLimits (r : Reading) (o : Overrides) : Reading :=
  { r with given := r.given ++ givenLimits o }

variable {o : Overrides}

/-- The flags of limits leave the values of other switches alone. -/
theorem value?_withLimits {s : Switch} (hs : ∀ l, s ≠ .limit l) :
    (r.withLimits o).value? s = r.value? s := by
  have hnone : (givenLimits o).reverse.find? (·.switch = s) = none := by
    simpa using switch_ne_of_mem_givenLimits (o := o) hs
  rw [value?, withLimits, List.reverse_append, List.find?_append, hnone, Option.none_or, value?]

theorem has_withLimits {s : Switch} (hs : ∀ l, s ≠ .limit l) :
    (r.withLimits o).has s = r.has s := by
  have hnone : (givenLimits o).any (·.switch = s) = false := by
    simpa using switch_ne_of_mem_givenLimits (o := o) hs
  rw [has, withLimits, List.any_append, hnone, Bool.or_false, has]

theorem filter_given_withLimits {s : Switch} (hs : ∀ l, s ≠ .limit l) :
    (r.withLimits o).given.filter (·.switch = s) = r.given.filter (·.switch = s) := by
  have hnone : (givenLimits o).filter (·.switch = s) = [] := by
    simpa using switch_ne_of_mem_givenLimits (o := o) hs
  rw [withLimits, List.filter_append, hnone, List.append_nil]

/-- The flags of limits set these limits. -/
theorem value?_limit_withLimits (hnew : ∀ g ∈ r.given, ∀ l, g.switch ≠ .limit l) (l : Limit) :
    (r.withLimits o).value? (.limit l) = (o.get l).map toString := by
  have hnone : r.given.reverse.find? (·.switch = .limit l) = none := by
    rw [List.find?_eq_none]
    intro g hg
    simpa using hnew g (List.mem_reverse.mp hg) l
  rw [value?, withLimits, List.reverse_append, List.find?_append, hnone, Option.or_none]
  cases hfound : (givenLimits o).reverse.find? (·.switch = .limit l) with
  | none =>
    cases hwritten : o.get l with
    | none => rfl
    | some v =>
      rw [List.find?_eq_none] at hfound
      have hmem : givenLimit l v ∈ givenLimits o := mem_givenLimits.mpr ⟨l, v, hwritten, rfl⟩
      exact absurd (decide_eq_true rfl) (hfound _ (List.mem_reverse.mpr hmem))
  | some g =>
    have hlimit : g.switch = .limit l := by simpa using List.find?_some hfound
    obtain ⟨l', v, hwritten, rfl⟩ :=
      mem_givenLimits.mp (List.mem_reverse.mp (List.mem_of_find?_eq_some hfound))
    obtain rfl : l' = l := Switch.limit.inj hlimit
    rw [hwritten]
    rfl

/-- Behind a check that sets no limit, the flags of limits ask for the check with these. -/
theorem checkOptions_withLimits (hnew : ∀ g ∈ r.given, ∀ l, g.switch ≠ .limit l)
    (hfits : ∀ l v, o.get l = some v → Text.fitsSigned v) :
    (r.withLimits o).checkOptions = { r.checkOptions with thresholds := o } := by
  have hthresholds : (PerLimit.ofFn fun l => ((r.withLimits o).value? (.limit l)).bind readInteger?)
      = o := by
    refine PerLimit.ext_get fun l => ?_
    rw [PerLimit.get_ofFn, value?_limit_withLimits hnew]
    cases hwritten : o.get l with
    | none => rfl
    | some v => exact readInteger?_toString (hfits l v hwritten)
  unfold checkOptions
  simp only [hthresholds, ne_eq, reduceCtorEq, not_false_eq_true, implies_true, value?_withLimits,
    has_withLimits, filter_given_withLimits]
  rfl

theorem finish_eq_check_iff {config : Option String} {c : CheckOptions} :
    r.finish = .run config (.check c) ↔
      r.pending = none ∧ r.verb = .check ∧ r.value? .config = config ∧ r.checkOptions = c ∧
        (c.path.isSome && c.scopeRoot.isSome) = false := by
  unfold finish
  cases hpending : r.pending with
  | some s => simp
  | none =>
    cases hverb : r.verb with
    | check =>
      simp only [Option.isSome_none, Bool.false_eq_true, if_false, true_and]
      split_ifs with hroots
      · refine ⟨nofun, ?_⟩
        rintro ⟨-, rfl, hfree⟩
        rw [hroots] at hfree
        cases hfree
      · rw [Invocation.run.injEq, Request.check.injEq]
        constructor
        · rintro ⟨rfl, rfl⟩
          exact ⟨rfl, rfl, by simpa using hroots⟩
        · rintro ⟨rfl, rfl, -⟩
          exact ⟨rfl, rfl⟩
    | _ => simp

theorem finish_withLimits {config : Option String} {c : CheckOptions}
    (h : r.finish = .run config (.check c)) (hnew : ∀ g ∈ r.given, ∀ l, g.switch ≠ .limit l)
    (hfits : ∀ l v, o.get l = some v → Text.fitsSigned v) :
    (r.withLimits o).finish = .run config (.check { c with thresholds := o }) := by
  obtain ⟨hpending, hverb, hconfig, rfl, hroots⟩ := finish_eq_check_iff.mp h
  refine finish_eq_check_iff.mpr ⟨hpending, hverb, ?_,
    checkOptions_withLimits hnew hfits, hroots⟩
  rw [value?_withLimits (s := .config) nofun, hconfig]

/-- A check has a limit wherever a switch set one. -/
theorem no_limit_given (h : r.Open) (hnone : r.checkOptions.thresholds = .empty) :
    ∀ g ∈ r.given, ∀ l, g.switch ≠ .limit l := by
  intro g hg l hlimit
  have hget : (r.value? (.limit l)).bind readInteger? = none := by
    rw [← PerLimit.get_ofFn (fun l => (r.value? (.limit l)).bind readInteger?) l]
    show r.checkOptions.thresholds.get l = none
    rw [hnone, Overrides.empty, PerLimit.get_ofFn]
  cases hfound : r.given.reverse.find? (·.switch = .limit l) with
  | none =>
    rw [List.find?_eq_none] at hfound
    exact hfound g (List.mem_reverse.mpr hg) (decide_eq_true hlimit)
  | some g' =>
    have hswitch : g'.switch = .limit l := by simpa using List.find?_some hfound
    have haccepted := h.accepted g' (List.mem_reverse.mp (List.mem_of_find?_eq_some hfound))
    rw [value?, hfound, Option.map_some, Option.bind_some] at hget
    rw [hswitch, Switch.accepts, hget] at haccepted
    cases haccepted

end Reading

/-- The flags of limits set these limits and nothing else: put behind the command line of a check
without limits, they ask for the same check with these limits. -/
theorem ofArguments_limitFlags {arguments : List String} {config : Option String}
    {c : CheckOptions} {o : Overrides}
    (h : Invocation.ofArguments arguments = .run config (.check c)) (hdashes : "--" ∉ arguments)
    (hnone : c.thresholds = .empty) (hfits : ∀ l v, o.get l = some v → Text.fitsSigned v) :
    Invocation.ofArguments (arguments ++ limitFlags o) =
      .run config (.check { c with thresholds := o }) := by
  have hstart : Reading.Open {} := ⟨nofun, rfl⟩
  have hsound := Reading.sound_foldlM hstart hdashes
  unfold Invocation.ofArguments at h ⊢
  cases hread : arguments.foldlM Reading.step {} with
  | error e =>
    rw [hread] at h hsound
    exact absurd h (hsound config (.check c))
  | ok r =>
    rw [hread] at h hsound
    obtain ⟨hpending, hverb, -, hoptions, -⟩ := Reading.finish_eq_check_iff.mp h
    have hnew := Reading.no_limit_given hsound (hoptions ▸ hnone)
    have hflags : (arguments ++ limitFlags o).foldlM Reading.step {} = .ok (r.withLimits o) := by
      rw [List.foldlM_append, hread]
      exact Reading.foldlM_limitFlags hsound.going hverb hpending (by decide)
        (fun g hg l _ => hnew g hg l) hfits
    rw [hflags]
    exact Reading.finish_withLimits h hnew hfits

end QualityGate.Command
