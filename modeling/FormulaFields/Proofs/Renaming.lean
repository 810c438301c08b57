import FormulaFields.Proofs.StatementView
import Mathlib.Logic.Equiv.Basic

/-!
Names mean nothing beyond what the vocabulary knows of them, and layout means nothing at all. Two
texts may differ in the blanks between their tokens and, one to one, in the names that are neither
operators nor have rules nor are logical words: the search finds the same in both, up to the names.
-/
namespace FormulaFields

open Formula

/-- A text that is a name. -/
abbrev Identifier := { text : String // isIdentifier text = true }

/-- A one-to-one change of names that leaves alone all names the vocabulary knows. -/
structure Renaming (v : Vocabulary) where
  map : Identifier → Identifier
  injective : Function.Injective map
  operator : ∀ n, v.isOperator n.val = true → map n = n
  rule : ∀ n, n.val ∈ v.rules → map n = n
  logical : ∀ n, n.val ∈ Token.logicalWords → map n = n

namespace Renaming

variable {v : Vocabulary} (p : Renaming v)

/-- The change of any text: what is no name stays as it is. -/
def name (text : String) : String :=
  if identifier : isIdentifier text = true then (p.map ⟨text, identifier⟩).val else text

/-- The tokens have the same kind, and the same text unless they are names. -/
structure Relates (t u : Token) : Prop where
  kind : u.kind = t.kind
  name : t.isName = true → u.text = p.name t.text
  other : t.isName = false → u.text = t.text

def token (t : Token) : Token := ⟨t.kind, if t.isName then p.name t.text else t.text⟩

/-! ### Names -/

theorem name_of_identifier (n : Identifier) : p.name n.val = (p.map n).val := dif_pos n.property

theorem name_of_not_identifier {text : String} (other : isIdentifier text = false) :
    p.name text = text :=
  dif_neg (by rw [other]; exact Bool.false_ne_true)

theorem isIdentifier_name (text : String) : isIdentifier (p.name text) = isIdentifier text := by
  cases identifier : isIdentifier text with
  | false => rw [p.name_of_not_identifier identifier, identifier]
  | true =>
    rw [p.name_of_identifier ⟨text, identifier⟩]
    exact (p.map ⟨text, identifier⟩).property

theorem name_injective : Function.Injective p.name := by
  intro first second same
  have alike := p.isIdentifier_name second
  rw [← same, p.isIdentifier_name] at alike
  cases identifier : isIdentifier first with
  | false =>
    rwa [p.name_of_not_identifier identifier,
      p.name_of_not_identifier (alike.symm.trans identifier)] at same
  | true =>
    rw [p.name_of_identifier ⟨first, identifier⟩,
      p.name_of_identifier ⟨second, alike.symm.trans identifier⟩] at same
    exact congrArg Subtype.val (p.injective (Subtype.ext same))

/-- A name that is fixed if it is known stays known or unknown. -/
private theorem known_name (known : String → Prop)
    (fixed : ∀ n : Identifier, known n.val → p.map n = n) (text : String) :
    p.name text = text ∨ (¬ known text ∧ ¬ known (p.name text)) := by
  cases identifier : isIdentifier text with
  | false => exact Or.inl (p.name_of_not_identifier identifier)
  | true =>
    let n : Identifier := ⟨text, identifier⟩
    have same : p.name text = (p.map n).val := p.name_of_identifier n
    -- A moved name is unknown, since known names are fixed.
    by_cases moved : p.map n = n
    · exact Or.inl (by rw [same, moved])
    · refine Or.inr ⟨fun before => moved (fixed n before), fun after => ?_⟩
      rw [same] at after
      -- The image is fixed too, and so it was not moved there.
      exact moved (p.injective (fixed (p.map n) after))

private theorem decided_name {known : String → Bool}
    (fixed : ∀ n : Identifier, known n.val = true → p.map n = n) (text : String) :
    known (p.name text) = known text := by
  rcases p.known_name (known · = true) fixed text with same | ⟨before, after⟩
  · rw [same]
  · rw [Bool.eq_false_iff.mpr before, Bool.eq_false_iff.mpr after]

private theorem rule_name (text : String) : v.rules[p.name text]? = v.rules[text]? := by
  rcases p.known_name (· ∈ v.rules) p.rule text with same | ⟨before, after⟩
  · rw [same]
  · rw [Std.ExtTreeMap.getElem?_eq_none before, Std.ExtTreeMap.getElem?_eq_none after]

/-! ### Tokens -/

theorem relabels : Relabels v p.token p.name where
  kind := fun _ => rfl
  text := fun _ named => if_pos named
  equals := by
    intro t
    rw [token]
    cases t.isName with
    | false => rfl
    | true =>
      -- A name holds no equals sign before or after it is renamed.
      cases identifier : isIdentifier t.text with
      | false => simp [p.name_of_not_identifier identifier]
      | true =>
        have renamed := (p.isIdentifier_name t.text).trans identifier
        simp [equals_of_identifier identifier, equals_of_identifier renamed]
  semicolon := rfl
  injective := p.name_injective
  logical := p.decided_name fun n known => p.logical n (List.contains_iff_mem.mp known)
  operator := p.decided_name p.operator
  rule := p.rule_name

theorem eq_token_of_relates {t u : Token} (related : p.Relates t u) : u = p.token t := by
  obtain ⟨kind, text⟩ := u
  obtain ⟨rfl, name, other⟩ := related
  rw [token]
  cases named : t.isName with
  | false => rw [if_neg Bool.false_ne_true, ← other named]
  | true => rw [if_pos rfl, ← name named]

theorem eq_map_of_relates {first second : List Token}
    (related : List.Forall₂ p.Relates first second) : second = first.map p.token := by
  induction related with
  | nil => rfl
  | cons one _ ih => rw [p.eq_token_of_relates one, ih, List.map_cons]

private theorem relates_token (t : Token) : p.Relates t (p.token t) where
  kind := rfl
  name := fun named => if_pos named
  other := fun other => if_neg (by rw [other]; exact Bool.false_ne_true)

theorem relates_of_eq_map {first second : List Token} (same : second = first.map p.token) :
    List.Forall₂ p.Relates first second := by
  subst same
  induction first with
  | nil => exact .nil
  | cons t rest ih => exact .cons (p.relates_token t) ih

/-! ### Searches -/

/-- The fields of a formula with renamed tokens are the renamed fields, and so are the names that
the search of an expression reports, in the same order. -/
theorem search_renamed :
    (∀ first second, List.Forall₂ p.Relates (tokens (clean first)) (tokens (clean second)) →
      v.fields second = .ofList ((v.fields first).toList.map p.name)) ∧
    (∀ first second depth, List.Forall₂ p.Relates (tokens first) (tokens second) →
      v.scanText second depth = (v.scanText first depth).map p.name) := by
  constructor
  · intro first second related
    rw [v.fields_eq second, v.fields_eq first, p.eq_map_of_relates related]
    exact p.relabels.fieldsOfTokens_map _
  · intro first second depth related
    rw [v.scanText_eq second, v.scanText_eq first, p.eq_map_of_relates related]
    exact p.relabels.scanTokens_map _ _

private theorem swap_known {a b n : Identifier} (known : String → Prop)
    (unknown : ¬ known a.val ∧ ¬ known b.val) (fixed : known n.val) : Equiv.swap a b n = n := by
  apply Equiv.swap_apply_of_ne_of_ne
  · rintro rfl
    exact unknown.1 fixed
  · rintro rfl
    exact unknown.2 fixed

/-- The vocabulary has no use for the name. -/
def Unknown (v : Vocabulary) (n : Identifier) : Prop :=
  ¬ v.isOperator n.val = true ∧ n.val ∉ v.rules ∧ n.val ∉ Token.logicalWords

/-- The exchange of two names that the vocabulary does not know. -/
def swap (a b : Identifier) (first : Unknown v a) (second : Unknown v b) : Renaming v where
  map := Equiv.swap a b
  injective := (Equiv.swap a b).injective
  operator := fun _ => swap_known (v.isOperator · = true) ⟨first.1, second.1⟩
  rule := fun _ => swap_known (· ∈ v.rules) ⟨first.2.1, second.2.1⟩
  logical := fun _ => swap_known (· ∈ Token.logicalWords) ⟨first.2.2, second.2.2⟩

private theorem unknown_of_not_mem {operators : List String} {rules : List (String × Rule)}
    {limit : Nat} {n : Identifier}
    (free : n.val ∉ operators ++ rules.map (·.1) ++ Token.logicalWords) :
    Unknown ⟨.ofList operators, .ofList rules, limit⟩ n := by
  simp only [List.mem_append, not_or] at free
  obtain ⟨⟨operator, rule⟩, logical⟩ := free
  refine ⟨?_, ?_, logical⟩
  · simpa [Vocabulary.isOperator] using operator
  · simpa [Std.ExtTreeMap.mem_ofList] using rule

theorem search_renamed_swap :
    ∃ (v : Vocabulary) (p : Renaming v), v.isOperator "rank" = true ∧ p.name "close" = "volume" ∧
      v.fields "x=rank( volume );x*2 // twice" =
        .ofList ((v.fields "x = rank(close); x * 2").toList.map p.name) ∧
      v.scanText "rank(volume)" 1 = (v.scanText "rank( close )" 1).map p.name := by
  let p : Renaming ⟨.ofList ["rank"], .ofList [("rank", Rule.firstArguments 1)], 3⟩ :=
    swap ⟨"close", by decide⟩ ⟨"volume", by decide⟩ (unknown_of_not_mem (by decide))
      (unknown_of_not_mem (by decide))
  have fields := p.search_renamed.1 "x = rank(close); x * 2" "x=rank( volume );x*2 // twice"
    (p.relates_of_eq_map (by decide +kernel))
  have scan := p.search_renamed.2 "rank( close )" "rank(volume)" 1
    (p.relates_of_eq_map (by decide +kernel))
  exact ⟨_, p, by simp [Vocabulary.isOperator], by decide, fields, scan⟩

end Renaming

end FormulaFields
