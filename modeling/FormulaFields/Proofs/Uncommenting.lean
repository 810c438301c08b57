import FormulaFields.Formula.Comment
import Mathlib.Data.List.Infix

/-!
What the reader of comments keeps of a text. It keeps nothing that is not there, it keeps a text
without comments as it is, and what follows a text that ends outside comments is read on its own.
-/
namespace FormulaFields.Formula

open Text (Transducer)

/-- Where the reader of comments stands behind a text. -/
def commentMode (text : List Char) : CommentMode := uncommenter.after .code text

/-- Outside all comments; a slash may be waiting to open one. -/
def CommentMode.IsOutside (m : CommentMode) : Prop := m = .code ∨ m = .slash

instance (m : CommentMode) : Decidable m.IsOutside :=
  inferInstanceAs (Decidable (m = .code ∨ m = .slash))

/-- Two characters that open a comment stand in the text. -/
def OpensComment (text : List Char) : Prop := ['/', '/'] <:+: text ∨ ['/', '*'] <:+: text

instance : DecidablePred OpensComment := fun text =>
  inferInstanceAs (Decidable (['/', '/'] <:+: text ∨ ['/', '*'] <:+: text))

theorem uncomment_append {first : List Char} (outside : commentMode first = .code)
    (second : List Char) : uncomment (first ++ second) = uncomment first ++ uncomment second := by
  rw [commentMode] at outside
  have kept : uncomment first = uncommenter.written .code first := by
    rw [uncomment, Transducer.run_eq, outside]
    exact List.append_nil _
  rw [kept, uncomment, Transducer.run_append, outside, uncomment]

private theorem eq_slash_of_step {m : CommentMode} {c : Char} (waits : (m.step c).1 = .slash) :
    c = '/' := by
  unfold CommentMode.step at waits
  split at waits <;> first | rfl | cases waits

/-- Only a slash at the end waits. -/
theorem commentMode_eq_code {text : List Char} (outside : (commentMode text).IsOutside)
    (last : text.getLast? ≠ some '/') : commentMode text = .code := by
  rcases outside with code | slash
  · exact code
  · rcases List.eq_nil_or_concat text with rfl | ⟨front, c, rfl⟩
    · cases slash
    · rw [List.concat_eq_append] at slash last
      rw [commentMode, Transducer.after_append] at slash
      obtain rfl := eq_slash_of_step slash
      exact absurd List.getLast?_concat last

private theorem step_sublist (m : CommentMode) (c : Char) :
    ((m.step c).2 ++ (m.step c).1.finish).Sublist (m.finish ++ [c]) := by
  unfold CommentMode.step
  split <;> simp [CommentMode.finish]

private theorem run_sublist (m : CommentMode) (text : List Char) :
    (uncommenter.run m text).Sublist (m.finish ++ text) := by
  induction text generalizing m with
  | nil => simp [Transducer.run, uncommenter]
  | cons c rest ih =>
    have written := (List.append_sublist_append_left (m.step c).2).mpr (ih (m.step c).1)
    have read := (List.append_sublist_append_right rest).mpr (step_sublist m c)
    rw [List.append_assoc, List.append_assoc] at read
    exact written.trans read

/-- Nothing is kept that does not stand in the text. -/
theorem uncomment_sublist (text : List Char) : (uncomment text).Sublist text :=
  run_sublist .code text

/-- A slash waits until the next character shows that it opens nothing. -/
private theorem run_of_not_opensComment (text : List Char) :
    (¬ OpensComment text → text.getLast? ≠ some '/' →
        uncommenter.after .code text = .code ∧ uncommenter.written .code text = text) ∧
      (¬ OpensComment ('/' :: text) → ('/' :: text).getLast? ≠ some '/' →
        uncommenter.after .slash text = .code ∧ uncommenter.written .slash text = '/' :: text) := by
  induction text with
  | nil => exact ⟨fun _ _ => ⟨rfl, rfl⟩, fun _ last => absurd rfl last⟩
  | cons c rest ih =>
    obtain ⟨fromCode, fromSlash⟩ := ih
    have fewer {d : Char} {more : List Char} (plain : ¬ OpensComment (d :: more)) :
        ¬ OpensComment more :=
      fun opens => plain (opens.imp List.infix_cons List.infix_cons)
    have shorter {d : Char} {more : List Char} (last : (d :: more).getLast? ≠ some '/') :
        more.getLast? ≠ some '/' := by
      cases more with
      | nil => nofun
      | cons e tail => rwa [List.getLast?_cons_cons] at last
    constructor
    · intro plain last
      by_cases slash : c = '/'
      · subst slash
        exact fromSlash plain last
      · obtain ⟨after, written⟩ := fromCode (fewer plain) (shorter last)
        have one : uncommenter.step .code c = (.code, [c]) := by
          simp [uncommenter, CommentMode.step]
        simp [Transducer.after, Transducer.written, one, after, written]
    · intro plain last
      have other : c ≠ '/' ∧ c ≠ '*' := by
        refine ⟨?_, ?_⟩ <;> rintro rfl
        · exact plain (Or.inl ⟨[], rest, rfl⟩)
        · exact plain (Or.inr ⟨[], rest, rfl⟩)
      obtain ⟨after, written⟩ := fromCode (fewer (fewer plain)) (shorter (shorter last))
      have one : uncommenter.step .slash c = (.code, ['/', c]) := by
        simp [uncommenter, CommentMode.step, other]
      simp [Transducer.after, Transducer.written, one, after, written]

/-- A text that opens no comment and leaves no slash waiting is kept as it is. -/
theorem uncomment_of_not_opensComment {text : List Char} (plain : ¬ OpensComment text)
    (last : text.getLast? ≠ some '/') : commentMode text = .code ∧ uncomment text = text := by
  obtain ⟨after, written⟩ := (run_of_not_opensComment text).1 plain last
  refine ⟨after, ?_⟩
  rw [uncomment, Transducer.run_eq, after, written]
  exact List.append_nil text

/-- A slash that waits at the end is written there. -/
theorem uncomment_eq_self {text : List Char} (plain : ¬ OpensComment text) :
    uncomment text = text := by
  by_cases last : text.getLast? = some '/'
  · obtain ⟨front, rfl⟩ := List.getLast?_eq_some_iff.mp last
    -- Two slashes at the end would open a comment.
    have single : front.getLast? ≠ some '/' := by
      intro slash
      obtain ⟨more, rfl⟩ := List.getLast?_eq_some_iff.mp slash
      exact plain (Or.inl ⟨more, [], by simp⟩)
    have within : front <:+: front ++ ['/'] := (List.prefix_append front ['/']).isInfix
    have fewer : ¬ OpensComment front :=
      fun opens => plain (opens.imp (·.trans within) (·.trans within))
    obtain ⟨outside, kept⟩ := uncomment_of_not_opensComment fewer single
    rw [uncomment_append outside, kept]
    rfl
  · exact (uncomment_of_not_opensComment plain last).2

private theorem infix_of_infix_append {x y c : Char} (first : x ≠ c) (second : y ≠ c)
    {before after : List Char} (inside : [x, y] <:+: before ++ c :: after) :
    [x, y] <:+: before ∨ [x, y] <:+: after := by
  induction before with
  | nil =>
    rcases List.infix_cons_iff.mp inside with start | later
    · exact absurd (List.cons_prefix_cons.mp start).1 first
    · exact Or.inr later
  | cons d rest ih =>
    rw [List.cons_append, List.infix_cons_iff] at inside
    rcases inside with start | later
    · obtain ⟨rfl, next⟩ := List.cons_prefix_cons.mp start
      cases rest with
      | nil => exact absurd (List.cons_prefix_cons.mp next).1 second
      | cons e rest =>
        obtain ⟨rfl, _⟩ := List.cons_prefix_cons.mp next
        exact Or.inl ⟨[], rest, rfl⟩
    · exact (ih later).imp_left List.infix_cons

/-- Any other character keeps what opens a comment on one of its sides. -/
theorem opensComment_append_cons {first second : List Char} {c : Char} (slash : c ≠ '/')
    (star : c ≠ '*') (opens : OpensComment (first ++ c :: second)) :
    OpensComment first ∨ OpensComment second := by
  rcases opens with line | block
  · exact (infix_of_infix_append slash.symm slash.symm line).imp Or.inl Or.inl
  · exact (infix_of_infix_append slash.symm star.symm block).imp Or.inr Or.inr

/-- A text without a slash is kept. -/
theorem uncomment_of_no_slash {text : List Char} (absent : '/' ∉ text) :
    commentMode text = .code ∧ uncomment text = text := by
  have plain : ¬ OpensComment text := by
    rintro (line | block)
    · exact absent (line.subset List.mem_cons_self)
    · exact absent (block.subset List.mem_cons_self)
  exact uncomment_of_not_opensComment plain fun last => absent (List.mem_of_getLast? last)

end FormulaFields.Formula
