import FormulaFields.Proofs.Ceiling

/-!
What the fallback to plain names guarantees. A search that finds nothing on one level falls back to
all names that can be fields, so no search comes back empty where such a name is bound nowhere: one
operand keeps the name, and it is not bound in there either. Where no equals sign stands at all, a
search is empty exactly where there are no such names, whatever the limit. Then the levels fall back
at the same places, and the limit that is reached earlier reports at least as many names.
-/
namespace FormulaFields

open Formula

namespace Vocabulary

variable {v : Vocabulary}

/-! ### Nothing is lost -/

/-- A plain name of an expression is a plain name of one of its operands. -/
theorem exists_operand_of_mem_plainNames {ts : List Token} {name : String}
    (member : name ∈ v.plainNames ts) :
    ∃ operand ∈ splitTokens Token.isJoint ts, name ∈ v.plainNames operand := by
  obtain ⟨named, admitted, unbound⟩ := mem_plainNames_iff.mp member
  -- The name is no joint, so cutting at the joints keeps it.
  have other : (!(⟨.name, name⟩ : Token).isJoint) = true := by
    simp [Token.isJoint, Token.isLogicalWord, Kind.isConnective, admitted.2]
  have kept : ⟨.name, name⟩ ∈ ts.filter (!·.isJoint) :=
    List.mem_filter.mpr ⟨mem_names_iff.mp named, other⟩
  have gone : ∀ t, Token.isJoint t = true → (!t.isJoint) = false := fun t joint => by simp [joint]
  rw [← flatMap_filter_splitTokens gone] at kept
  obtain ⟨operand, cut, inside⟩ := List.mem_flatMap.mp kept
  have held := (List.mem_filter.mp inside).1
  have within : Detached ts operand := .of_mem_pieces isJoint_apart (List.mem_filter.mp cut).1
  refine ⟨operand, cut, mem_plainNames_iff.mpr ⟨mem_names_iff.mpr held, admitted, ?_⟩⟩
  exact fun bound => unbound (bound.of_infix within.isInfix)

/-- No search is empty where a plain name is left. -/
theorem scanTokens_ne_nil {levels : Nat} {ts : List Token} (plain : v.plainNames ts ≠ []) :
    v.scanTokens levels ts ≠ [] := by
  induction levels generalizing ts with
  | zero => exact plain
  | succ levels ih =>
    rw [scanTokens]
    by_cases compound : isCompound ts = true
    · rw [if_pos compound]
      -- The operand that keeps the name yields something on the next level.
      obtain ⟨name, member⟩ := List.exists_mem_of_ne_nil _ plain
      obtain ⟨operand, cut, inside⟩ := exists_operand_of_mem_plainNames member
      have kept := ih (List.ne_nil_of_mem inside)
      intro empty
      exact kept (List.flatMap_eq_nil_iff.mp empty operand cut)
    · rw [if_neg compound]
      dsimp only
      split
      · exact plain
      next found => simpa using found

theorem plainNames_ne_nil_iff {ts : List Token} :
    v.plainNames ts ≠ [] ↔ ∃ name ∈ names ts, v.Admits name ∧ ¬ Binds ts name := by
  constructor
  · intro plain
    obtain ⟨name, member⟩ := List.exists_mem_of_ne_nil _ plain
    exact ⟨name, mem_plainNames_iff.mp member⟩
  · rintro ⟨name, found⟩
    exact List.ne_nil_of_mem (mem_plainNames_iff.mpr found)

/-- The search of an expression finds something if one of its names can be a field and is bound
nowhere in it. If moreover all names that can be fields and have no equals sign behind them are the
same, then this name is all that is found. -/
theorem scanText_of_unbound_name (v : Vocabulary) (expression : String) (depth : Nat) :
    (v.plainNames (tokens expression) ≠ [] ↔
      ∃ name ∈ names (tokens expression), v.Admits name ∧ ¬ Binds (tokens expression) name) ∧
    (v.plainNames (tokens expression) ≠ [] → v.scanText expression depth ≠ []) ∧
    ∀ name ∈ names (tokens expression), v.Admits name → ¬ Binds (tokens expression) name →
      (∀ other ∈ freeNames (tokens expression), v.Admits other → other = name) →
      ∃ count, v.scanText expression depth = List.replicate (count + 1) name := by
  have survives (plain : v.plainNames (tokens expression) ≠ []) :
      v.scanText expression depth ≠ [] := by
    rw [scanText_eq]
    exact scanTokens_ne_nil plain
  refine ⟨plainNames_ne_nil_iff, survives, ?_⟩
  intro name named admitted unbound alone
  -- All that is found has no equals sign behind it, so it is the one name that can be a field.
  have found := survives (plainNames_ne_nil_iff.mpr ⟨name, named, admitted, unbound⟩)
  have same : ∀ other ∈ v.scanText expression depth, other = name := by
    intro other member
    rw [scanText_eq] at member
    obtain ⟨stands, possible⟩ := detached_of_mem_scanTokens member
    exact alone other (mem_freeNames_iff.mpr stands) possible
  obtain ⟨count, length⟩ := Nat.exists_eq_succ_of_ne_zero (mt List.length_eq_zero_iff.mp found)
  exact ⟨count, (List.eq_replicate_of_mem same).trans (by rw [length])⟩

/-- In an unfinished call and beside it, `close` alone can be a field; `std` is bound. -/
theorem scanText_of_unbound_name_close :
    ∃ count, scanText ⟨.ofList ["rank"], .ofList [("rank", Rule.firstArguments 2)], 1⟩
      "rank(close, std = 2) > [rank((close" 0 = List.replicate (count + 1) "close" := by
  have found := (scanText_of_unbound_name
    ⟨.ofList ["rank"], .ofList [("rank", Rule.firstArguments 2)], 1⟩
    "rank(close, std = 2) > [rank((close" 0).2.2 "close" (by decide +kernel) (by decide +kernel)
    (by decide +kernel) (by decide +kernel)
  exact found

/-! ### Limits -/

/-- Where no equals sign stands, only plain names are reported. -/
theorem mem_plainNames_of_mem_scanTokens {levels : Nat} {ts : List Token} {name : String}
    (unbound : ∀ t ∈ ts, t.kind ≠ .equals) (member : name ∈ v.scanTokens levels ts) :
    name ∈ v.plainNames ts := by
  obtain ⟨stands, admitted⟩ := detached_of_mem_scanTokens member
  have held : ⟨.name, name⟩ ∈ ts := stands.isInfix.subset List.mem_cons_self
  refine mem_plainNames_iff.mpr ⟨mem_names_iff.mpr held, admitted, ?_⟩
  rintro ⟨before, next, after, rfl, equals⟩
  exact unbound next (by simp) equals

/-- Where no equals sign stands, the levels make no difference to whether a search is empty. -/
theorem scanTokens_eq_nil_iff {levels : Nat} {ts : List Token}
    (unbound : ∀ t ∈ ts, t.kind ≠ .equals) :
    v.scanTokens levels ts = [] ↔ v.plainNames ts = [] := by
  constructor
  · intro empty
    by_contra plain
    exact scanTokens_ne_nil plain empty
  · intro none
    by_contra found
    -- What is found would be a plain name.
    obtain ⟨name, member⟩ := List.exists_mem_of_ne_nil _ found
    have plain := mem_plainNames_of_mem_scanTokens unbound member
    rw [none] at plain
    cases plain

/-- Where no equals sign stands, a search with fewer levels reports all that a search with more
levels does. -/
theorem scanTokens_subset {levels fewer : Nat} {ts : List Token} (less : fewer ≤ levels)
    (unbound : ∀ t ∈ ts, t.kind ≠ .equals) : v.scanTokens levels ts ⊆ v.scanTokens fewer ts := by
  induction fewer generalizing levels ts with
  | zero => exact fun name member => mem_plainNames_of_mem_scanTokens unbound member
  | succ fewer ih =>
    obtain ⟨levels, rfl⟩ : ∃ more, levels = more + 1 := ⟨levels - 1, by omega⟩
    -- Operands and arguments hold no equals sign either.
    have inner {parts : List (List Token)} (cut : ∀ part ∈ parts, Detached ts part) :
        ∀ part ∈ parts, ∀ t ∈ part, t.kind ≠ .equals :=
      fun part member t inside => unbound t ((cut part member).isInfix.subset inside)
    have deeper {parts : List (List Token)} (cut : ∀ part ∈ parts, Detached ts part) :
        parts.flatMap (v.scanTokens levels) ⊆ parts.flatMap (v.scanTokens fewer) := by
      intro name member
      obtain ⟨part, listed, found⟩ := List.mem_flatMap.mp member
      exact List.mem_flatMap.mpr
        ⟨part, listed, ih (by omega) (inner cut part listed) found⟩
    rw [scanTokens, scanTokens]
    by_cases compound : isCompound ts = true
    · rw [if_pos compound, if_pos compound]
      exact deeper fun operand cut => .of_mem_pieces isJoint_apart (List.mem_filter.mp cut).1
    · rw [if_neg compound, if_neg compound]
      dsimp only
      have searched : ∀ argument ∈ (tokenCalls ts).flatMap (v.fieldArguments holdEquals),
          Detached ts argument := fun argument member => (detached_of_mem_searched member).1
      generalize (tokenCalls ts).flatMap (v.fieldArguments holdEquals) = arguments at searched ⊢
      -- Both searches fall back, or neither does.
      have alike : ∀ argument ∈ arguments,
          (v.scanTokens levels argument = [] ↔ v.scanTokens fewer argument = []) := by
        intro argument member
        have blind := inner searched argument member
        exact (scanTokens_eq_nil_iff blind).trans (scanTokens_eq_nil_iff blind).symm
      have together : (arguments.flatMap (v.scanTokens levels)).isEmpty =
          (arguments.flatMap (v.scanTokens fewer)).isEmpty := by
        apply Bool.eq_iff_iff.mpr
        rw [List.isEmpty_iff, List.isEmpty_iff, List.flatMap_eq_nil_iff, List.flatMap_eq_nil_iff]
        exact forall₂_congr alike
      rw [together]
      split
      · exact List.Subset.refl _
      · exact deeper searched

section Limits

variable (operators : NameSet) (rules : RuleBook)

/-- The limit that cuts a search short makes it report more: where no equals sign stands, a search
reports under a lower limit all that it reports under a higher one. -/
theorem scanText_subset_of_limit_le (expression : String)
    (unbound : ∀ t ∈ tokens expression, t.kind ≠ .equals) {limit lower : Nat}
    (less : lower ≤ limit) (depth : Nat) :
    (mk operators rules limit).scanText expression depth ⊆
      (mk operators rules lower).scanText expression depth := by
  -- A limit counts for a search only by the levels that are left below its depth.
  have fewer : lower + 1 - depth ≤ limit + 1 - depth := by omega
  intro name member
  rw [scanText, scan_limit operators rules limit lower, scan_eq] at member
  rw [scanText, scan_eq]
  exact scanTokens_subset fewer unbound member

/-- Under the limit 1 the inner call is not opened, and its second argument is reported too. -/
theorem scanText_subset_of_limit_le_corr :
    (mk (.ofList ["corr", "reverse"]) (.ofList [("corr", Rule.firstArguments 1)]) 50).scanText
        "corr(reverse(corr(high, low)), open)" 0 = ["high"] ∧
      (mk (.ofList ["corr", "reverse"]) (.ofList [("corr", Rule.firstArguments 1)]) 1).scanText
        "corr(reverse(corr(high, low)), open)" 0 = ["high", "low"] ∧
      ["high"] ⊆ ["high", "low"] := by
  have deep : (mk (.ofList ["corr", "reverse"]) (.ofList [("corr", Rule.firstArguments 1)])
      50).scanText "corr(reverse(corr(high, low)), open)" 0 = ["high"] := by decide +kernel
  have shallow : (mk (.ofList ["corr", "reverse"]) (.ofList [("corr", Rule.firstArguments 1)])
      1).scanText "corr(reverse(corr(high, low)), open)" 0 = ["high", "low"] := by decide +kernel
  have within := scanText_subset_of_limit_le (.ofList ["corr", "reverse"])
    (.ofList [("corr", Rule.firstArguments 1)]) "corr(reverse(corr(high, low)), open)"
    (by decide +kernel) (show 1 ≤ 50 by decide) 0
  rw [deep, shallow] at within
  exact ⟨deep, shallow, within⟩

end Limits

end Vocabulary

end FormulaFields
