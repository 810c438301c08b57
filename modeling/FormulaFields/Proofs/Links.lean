import FormulaFields.Proofs.ListedAlphas
import FormulaFields.Proofs.Trimming

/-!
Links that are printed and then followed. A link is the address of the platform without the slashes
at its end, and a path whose last segment is the id. To follow it the whole address is looked for,
and it is found at the start of the link: one slash at its end is the one that the path begins with.
Main statement: `ofInput_pastedLink`.
-/
namespace FormulaFields

open Formula
open Text (isBlank)

/-- A text that begins with a part goes on, behind its first occurrence, with what follows it. -/
theorem Text.after?_append (part rest : List Char) : after? part (part ++ rest) = some rest := by
  cases whole : part ++ rest with
  | nil =>
    obtain ⟨rfl, rfl⟩ := List.append_eq_nil_iff.mp whole
    rfl
  | cons c more =>
    have here : part.isPrefixOf (c :: more) = true :=
      List.isPrefixOf_iff_prefix.mpr ⟨rest, whole⟩
    rw [after?, if_pos here, ← whole, List.drop_left]

/-- The library knows `dropEndWhile` by another name. -/
theorem Text.dropEndWhile_eq {Item : Type} (test : Item → Bool) (list : List Item) :
    dropEndWhile test list = list.rdropWhile test := rfl

/-! ### Addresses, ids and links -/

/-- An address without blanks around it and with at most one slash at its end. -/
structure IsAddress (platform : String) : Prop where
  nonempty : platform ≠ ""
  start : ∀ c ∈ platform.toList.head?, isBlank c = false
  stop : ∀ c ∈ platform.toList.getLast?, isBlank c = false
  slashes : ¬ ['/', '/'] <:+ platform.toList

instance : DecidablePred IsAddress := fun platform =>
  -- Only the characters at the ends are tried, not every character there is.
  have := Option.decidableForallMem (p := (isBlank · = false)) platform.toList.head?
  have := Option.decidableForallMem (p := (isBlank · = false)) platform.toList.getLast?
  decidable_of_iff (platform ≠ "" ∧ (∀ c ∈ platform.toList.head?, isBlank c = false) ∧
      (∀ c ∈ platform.toList.getLast?, isBlank c = false) ∧ ¬ ['/', '/'] <:+ platform.toList)
    ⟨fun ⟨nonempty, start, stop, slashes⟩ => ⟨nonempty, start, stop, slashes⟩,
      fun address => ⟨address.nonempty, address.start, address.stop, address.slashes⟩⟩

/-- An id that a link can end with. -/
structure IsLinkable (id : String) : Prop where
  nonempty : id ≠ ""
  slash : '/' ∉ id.toList
  question : '?' ∉ id.toList
  stop : ∀ c ∈ id.toList.getLast?, isBlank c = false

instance : DecidablePred IsLinkable := fun id =>
  have := Option.decidableForallMem (p := (isBlank · = false)) id.toList.getLast?
  decidable_of_iff (id ≠ "" ∧ '/' ∉ id.toList ∧ '?' ∉ id.toList ∧
      ∀ c ∈ id.toList.getLast?, isBlank c = false)
    ⟨fun ⟨nonempty, slash, question, stop⟩ => ⟨nonempty, slash, question, stop⟩,
      fun linkable => ⟨linkable.nonempty, linkable.slash, linkable.question, linkable.stop⟩⟩

/-- The link of an alpha with text before and after it, and perhaps with a query behind it. -/
def pastedLink (platform id before after : String) (query : Option String) : String :=
  before ++ alphaLink platform id ++ query.elim "" ("?" ++ ·) ++ after

/-- A link is the whole address and a path that ends with the id. -/
theorem exists_alphaLink {platform : String} (slashes : ¬ ['/', '/'] <:+ platform.toList)
    (id : String) :
    ∃ path, '?' ∉ path ∧
      (alphaLink platform id).toList = platform.toList ++ path ++ '/' :: id.toList := by
  have spelled : (alphaLink platform id).toList =
      Text.dropEndWhile (· == '/') platform.toList ++ "/alpha".toList ++ '/' :: id.toList := by
    simp [alphaLink]
  rw [spelled]
  rcases List.eq_nil_or_concat platform.toList with none | ⟨front, c, whole⟩
  · exact ⟨"/alpha".toList, by decide, by rw [none]; rfl⟩
  · rw [List.concat_eq_append] at whole
    rw [whole] at slashes ⊢
    by_cases slash : c = '/'
    · -- The slash at the end goes, and as there is no other one before it, nothing else does.
      subst slash
      have kept : (front ++ ['/']).rdropWhile (· == '/') = front := by
        rw [List.rdropWhile_concat_pos _ _ _ rfl, List.rdropWhile_eq_self_iff]
        intro nonempty last
        have ending := List.dropLast_append_getLast nonempty
        rw [beq_iff_eq.mp last] at ending
        exact slashes ⟨front.dropLast, by rw [← ending]; simp⟩
      refine ⟨"alpha".toList, by decide, ?_⟩
      rw [Text.dropEndWhile_eq, kept]
      simp
    · have kept : (front ++ [c]).rdropWhile (· == '/') = front ++ [c] :=
        List.rdropWhile_concat_neg _ _ _ (by simpa using slash)
      refine ⟨"/alpha".toList, by decide, ?_⟩
      rw [Text.dropEndWhile_eq, kept]

namespace Reference

/-- The last segment of a path is what stands behind its last slash, up to the query. -/
theorem lastSegment?_append {path id query : List Char} (outside : '?' ∉ path)
    (question : '?' ∉ id) (slash : '/' ∉ id) (nonempty : id ≠ [])
    (asked : ∀ c ∈ query.head?, c = '?') :
    lastSegment? (path ++ '/' :: id ++ query) = some id := by
  have before : ∀ c ∈ path ++ '/' :: id, (c != '?') = true := by
    intro c member
    rw [bne_iff_ne]
    rintro rfl
    simp [outside, question] at member
  have behind : query.takeWhile (· != '?') = [] := by
    cases query with
    | nil => rfl
    | cons c rest => simp [asked c rfl]
  have shown : (!id.isEmpty) = true := by simpa using nonempty
  rw [lastSegment?, List.takeWhile_append_of_pos before, behind, List.append_nil,
    List.splitOn_append_cons_self, List.splitOn_eq_singleton slash, List.reverse_append,
    List.reverse_singleton, List.singleton_append, List.find?_cons, shown]

end Reference

/-! ### Links that are followed -/

/-- What the blanks around a pasted link and its query leave to be read: the address, a path that
ends with the id, and perhaps a query. -/
theorem exists_trim_pastedLink {platform id before after : String} (address : IsAddress platform)
    (linkable : IsLinkable id) (front : ∀ c ∈ before.toList, isBlank c = true)
    (back : ∀ c ∈ after.toList, isBlank c = true) (query : Option String) :
    ∃ path asked, '?' ∉ path ∧ (∀ c ∈ List.head? asked, c = '?') ∧
      Text.trim (pastedLink platform id before after query).toList =
        platform.toList ++ (path ++ '/' :: id.toList ++ asked) := by
  obtain ⟨path, outside, link⟩ := exists_alphaLink address.slashes id
  have written : (pastedLink platform id before after query).toList =
      before.toList ++ (platform.toList ++ path ++ '/' :: id.toList ++
        (query.elim "" ("?" ++ ·)).toList) ++ after.toList := by
    simp [pastedLink, link]
  obtain ⟨c, rest, begun⟩ := List.exists_cons_of_ne_nil
    (mt String.toList_eq_nil_iff.mp address.nonempty)
  -- The link begins as the address does and ends as the id does, so it has no blanks around it.
  have head : ∀ d ∈ (platform.toList ++ path ++ '/' :: id.toList).head?, isBlank d = false := by
    intro d first
    refine address.start d ?_
    rw [begun] at first ⊢
    exact first
  have last : ∀ d ∈ (platform.toList ++ path ++ '/' :: id.toList).getLast?,
      isBlank d = false := by
    intro d final
    obtain ⟨ending, e, whole⟩ := (List.eq_nil_or_concat id.toList).resolve_left
      (mt String.toList_eq_nil_iff.mp linkable.nonempty)
    refine linkable.stop d ?_
    rw [whole, List.concat_eq_append] at final ⊢
    rw [← List.cons_append, ← List.append_assoc, List.getLast?_concat] at final
    rwa [List.getLast?_concat]
  have marked : ∀ d ∈ (query.elim "" ("?" ++ ·)).toList.head?, d = '?' := by
    cases query <;> simp
  obtain ⟨asked, kept, more, whole⟩ := exists_trim_append (by simp) head last
    (query.elim "" ("?" ++ ·)).toList
  refine ⟨path, asked, outside, fun d first => marked d ?_, ?_⟩
  · rw [← whole, List.head?_append, Option.mem_def.mp first, Option.some_or]
    rfl
  · rw [written, trim_blanks front back, kept]
    simp

/-- The link that is printed for an alpha, pasted with blanks around it and with or without a query,
refers to that alpha, whatever the address. So it leads to the formula of the first alpha that is
listed with the id. -/
theorem ofInput_pastedLink {platform id before after : String} (address : IsAddress platform)
    (linkable : IsLinkable id) (front : ∀ c ∈ before.toList, isBlank c = true)
    (back : ∀ c ∈ after.toList, isBlank c = true) (query : Option String) :
    (∀ matching current, id ∈ matching →
        "  " ++ id ++ "  " ++ alphaLink platform id ∈
          Report.matchLines platform matching current) ∧
      Reference.ofInput platform (pastedLink platform id before after query) = .alpha id ∧
      ∀ alphas : List Alpha, ∀ a ∈ alphas.find? (·.id == id), ∀ formula ∈ a.formula?,
        Subject.ofInput platform (pastedLink platform id before after query) alphas =
          ⟨some id, formula⟩ := by
  have followed :
      Reference.ofInput platform (pastedLink platform id before after query) = .alpha id := by
    obtain ⟨path, asked, outside, marked, read⟩ :=
      exists_trim_pastedLink address linkable front back query
    have stated : platform.isEmpty = false := by simpa using address.nonempty
    have segment := Reference.lastSegment?_append outside linkable.question linkable.slash
      (mt String.toList_eq_nil_iff.mp linkable.nonempty) marked
    rw [Reference.ofInput, read, Text.after?_append, stated, if_neg Bool.false_ne_true]
    dsimp only
    rw [segment, Option.getD_some, String.ofList_toList]
  refine ⟨fun matching current member => ?_, followed, fun alphas a found formula code => ?_⟩
  · have some : matching.isEmpty = false := by
      apply Bool.eq_false_iff.mpr
      intro none
      rw [Std.ExtTreeSet.isEmpty_iff.mp none] at member
      exact Std.ExtTreeSet.not_mem_empty member
    rw [Report.matchLines.eq_def, some, if_neg Bool.false_ne_true]
    exact List.mem_cons_of_mem _
      (List.mem_map.mpr ⟨id, Std.ExtTreeSet.mem_toList.mpr member, rfl⟩)
  · have listed : formulaOf? alphas id = some formula :=
      Option.bind_eq_some_iff.mpr ⟨a, found, code⟩
    rw [Subject.ofInput_of_listed (by rw [followed]; exact listed), followed]
    rfl

/-- An address that ends with a slash and holds a question mark, and an id that begins with a
space. -/
theorem ofInput_pastedLink_query :
    IsAddress "https://x.org/?to=/" ∧ IsLinkable " Zé9" ∧
      pastedLink "https://x.org/?to=/" " Zé9" "\n " "\u2003" (some "tab=/pnl?") =
        "\n https://x.org/?to=/alpha/ Zé9?tab=/pnl?\u2003" ∧
      Reference.ofInput "https://x.org/?to=/" "\n https://x.org/?to=/alpha/ Zé9?tab=/pnl?\u2003" =
        .alpha " Zé9" ∧
      Subject.ofInput "https://x.org/?to=/" "\n https://x.org/?to=/alpha/ Zé9?tab=/pnl?\u2003"
          [⟨"B", none, none⟩, ⟨" Zé9", some "SUPER", some ⟨"close", none⟩⟩] =
        ⟨some " Zé9", "close"⟩ := by
  have address : IsAddress "https://x.org/?to=/" := by decide +kernel
  have linkable : IsLinkable " Zé9" := by decide +kernel
  have written : pastedLink "https://x.org/?to=/" " Zé9" "\n " "\u2003" (some "tab=/pnl?") =
      "\n https://x.org/?to=/alpha/ Zé9?tab=/pnl?\u2003" := by decide +kernel
  have front : ∀ c ∈ "\n ".toList, isBlank c = true := List.all_eq_true.mp (by decide +kernel)
  have back : ∀ c ∈ "\u2003".toList, isBlank c = true := List.all_eq_true.mp (by decide +kernel)
  obtain ⟨_, reference, subject⟩ :=
    ofInput_pastedLink address linkable front back (some "tab=/pnl?")
  rw [written] at reference subject
  exact ⟨address, linkable, written, reference,
    subject [⟨"B", none, none⟩, ⟨" Zé9", some "SUPER", some ⟨"close", none⟩⟩]
      ⟨" Zé9", some "SUPER", some ⟨"close", none⟩⟩ rfl "close" rfl⟩

end FormulaFields
