import Mathlib.Data.List.Basic
import Mustache.Text.Html
import Mustache.Text.Indentation

/-!
# Mustache.Proofs.Text.Html

Texts without markup, and the way back from entities to characters.

`Pieces` are texts put together from plain characters and entities. Escaping gives such a text
(`pieces_escapeHtml`), and putting two of them together or indenting one leaves it so. In such a
text each ampersand begins an entity (`Pieces.escaped`). Reading entities from left to right undoes
escaping (`unescapeHtml_escapeHtml`).
-/

namespace Mustache.Text

def significant : List Char := ['&', '<', '>', '"', '\'']

def entities : List (List Char) := ["&amp;", "&lt;", "&gt;", "&quot;", "&#39;"].map String.toList

def Plain (s : List Char) : Prop := ∀ c ∈ s, c ∉ significant

instance (s : List Char) : Decidable (Plain s) := List.decidableBAll (· ∉ significant) s

/-- No character opens or closes markup, and each ampersand begins an entity. -/
structure Escaped (s : List Char) : Prop where
  no_markup : ∀ c ∈ ['<', '>', '"', '\''], c ∉ s
  ampersand : ∀ before after, s = before ++ '&' :: after → ∃ e ∈ entities, e <+: '&' :: after

/-- Plain characters and entities, one behind the other. -/
inductive Pieces : List Char → Prop where
  | nil : Pieces []
  | plain {c s} : c ∉ significant → Pieces s → Pieces (c :: s)
  | entity {e s} : e ∈ entities → Pieces s → Pieces (e ++ s)

/-! ## Entities -/

theorem entity_eq_or (c : Char) : c ∈ significant ∧ entity c ∈ entities ∨
    c ∉ significant ∧ entity c = [c] := by
  by_cases h : c ∈ significant
  · refine .inl ⟨h, ?_⟩
    simp only [significant, List.mem_cons, List.not_mem_nil, or_false] at h
    obtain rfl | rfl | rfl | rfl | rfl := h <;> decide
  · refine .inr ⟨h, ?_⟩
    unfold entity
    split
    case h_6 => rfl
    all_goals exact absurd (by decide) h

theorem exists_cons_of_entity {e : List Char} (he : e ∈ entities) :
    ∃ name, e = '&' :: name ∧ Plain name := by
  have h : ∀ e ∈ entities, e = '&' :: e.tail ∧ Plain e.tail := by decide
  exact ⟨e.tail, h e he⟩

theorem Plain.append {s t : List Char} (h : Plain s) (h' : Plain t) : Plain (s ++ t) :=
  List.forall_mem_append.2 ⟨h, h'⟩

namespace Pieces

variable {s t : List Char}

theorem of_plain (h : Plain s) : Pieces s := by
  induction s with
  | nil => exact .nil
  | cons c s ih =>
    rw [Plain, List.forall_mem_cons] at h
    exact .plain h.1 (ih h.2)

theorem append (h : Pieces s) (h' : Pieces t) : Pieces (s ++ t) := by
  induction h with
  | nil => exact h'
  | plain hc _ ih => exact .plain hc ih
  | entity he _ ih =>
    rw [List.append_assoc]
    exact .entity he ih

/-- A line can begin before a piece, but not inside of an entity. -/
theorem indentFrom {indent : List Char} (hindent : Plain indent) (h : Pieces s) :
    ∀ fresh, Pieces (indentFrom indent fresh s) := by
  have hbefore (fresh : Bool) : Pieces (if fresh then indent else []) := by
    cases fresh with
    | true => exact .of_plain hindent
    | false => exact .nil
  induction h with
  | nil => exact fun _ => .nil
  | plain hc _ ih => exact fun fresh => (hbefore fresh).append (.plain hc (ih _))
  | @entity e s he _ ih =>
    intro fresh
    have hinside : Text.indentFrom indent fresh (e ++ s) =
        (if fresh then indent else []) ++ (e ++ Text.indentFrom indent false s) := by
      simp only [entities, List.map_cons, List.map_nil, List.mem_cons, List.not_mem_nil,
        or_false] at he
      obtain rfl | rfl | rfl | rfl | rfl := he <;> rfl
    rw [hinside]
    exact (hbefore fresh).append (.entity he (ih false))

theorem escaped (h : Pieces s) : Escaped s := by
  induction h with
  | nil => exact ⟨fun _ _ => List.not_mem_nil, fun before after h => by simp at h⟩
  | @plain c s hc _ ih =>
    refine ⟨fun d hd hmem => ?_, fun before after h => ?_⟩
    · rcases List.mem_cons.1 hmem with rfl | hmem
      · exact hc (List.mem_cons_of_mem _ hd)
      · exact ih.no_markup d hd hmem
    · cases before with
      | nil =>
        obtain ⟨rfl, rfl⟩ := List.cons.inj h
        exact absurd List.mem_cons_self hc
      | cons d before => exact ih.ampersand before after (List.cons.inj h).2
  | @entity e s he _ ih =>
    obtain ⟨name, rfl, hname⟩ := exists_cons_of_entity he
    refine ⟨fun d hd hmem => ?_, fun before after h => ?_⟩
    · rcases List.mem_append.1 hmem with hmem | hmem
      · rcases List.mem_cons.1 hmem with rfl | hmem
        · revert hd
          decide
        · exact hname d hmem (List.mem_cons_of_mem _ hd)
      · exact ih.no_markup d hd hmem
    · -- the ampersand is the one that begins the entity, or stands behind the entity
      rcases List.append_eq_append_iff.1 h with ⟨middle, rfl, hs⟩ | ⟨middle, hentity, hafter⟩
      · exact ih.ampersand middle after hs
      · cases before with
        | nil => exact ⟨'&' :: name, he, ⟨s, h⟩⟩
        | cons d before =>
          obtain ⟨rfl, hname'⟩ := List.cons.inj hentity
          cases middle with
          | nil => exact ih.ampersand [] after hafter.symm
          | cons d middle =>
            obtain ⟨rfl, -⟩ := List.cons.inj hafter
            exact absurd List.mem_cons_self (hname '&' (hname' ▸ by simp))

end Pieces

theorem pieces_escapeHtml (s : List Char) : Pieces (escapeHtml s) := by
  induction s with
  | nil => exact .nil
  | cons c s ih =>
    rw [escapeHtml, List.flatMap_cons]
    rcases entity_eq_or c with ⟨-, hentity⟩ | ⟨hplain, hentity⟩
    · exact .entity hentity ih
    · rw [hentity]
      exact .plain hplain ih

/-! ## The way back -/

/-- Each entity, read from left to right, becomes the character that it stands for. -/
def unescapeHtml : List Char → List Char
  | '&' :: 'a' :: 'm' :: 'p' :: ';' :: rest => '&' :: unescapeHtml rest
  | '&' :: 'l' :: 't' :: ';' :: rest => '<' :: unescapeHtml rest
  | '&' :: 'g' :: 't' :: ';' :: rest => '>' :: unescapeHtml rest
  | '&' :: 'q' :: 'u' :: 'o' :: 't' :: ';' :: rest => '"' :: unescapeHtml rest
  | '&' :: '#' :: '3' :: '9' :: ';' :: rest => '\'' :: unescapeHtml rest
  | c :: rest => c :: unescapeHtml rest
  | [] => []

theorem unescapeHtml_entity (c : Char) (rest : List Char) :
    unescapeHtml (entity c ++ rest) = c :: unescapeHtml rest := by
  rcases entity_eq_or c with ⟨hc, -⟩ | ⟨hc, hentity⟩
  · simp only [significant, List.mem_cons, List.not_mem_nil, or_false] at hc
    obtain rfl | rfl | rfl | rfl | rfl := hc <;> rfl
  · have hne (rest' : List Char) (h : c = '&') (_ : rest = rest') : False :=
      hc (h ▸ List.mem_cons_self)
    rw [hentity, List.singleton_append]
    exact unescapeHtml.eq_6 c rest (fun _ => hne _) (fun _ => hne _) (fun _ => hne _)
      (fun _ => hne _) fun _ => hne _

theorem unescapeHtml_escapeHtml (s : List Char) : unescapeHtml (escapeHtml s) = s := by
  induction s with
  | nil => rfl
  | cons c s ih =>
    rw [escapeHtml, List.flatMap_cons, unescapeHtml_entity]
    exact congrArg (c :: ·) ih

theorem escapeHtml_injective : Function.Injective escapeHtml :=
  Function.LeftInverse.injective unescapeHtml_escapeHtml

end Mustache.Text
