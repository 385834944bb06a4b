import Mathlib.Data.List.Forall2
import Mustache.Proofs.Scanner.Excerpt
import Mustache.Proofs.Tree.Lines

/-!
# Mustache.Proofs.Tree.Excerpt

The text inside a section is a template of its own, with the content of the section.

What a tree holds beside its texts, indents and places is its `Outline`. The tags of a tree in
document order tell its outline, but for what its sections keep of the source: the sequence is
prefix-free, so a tree can be read off the front of a longer one (`outlineAll_eq`). The text
between the tags of a section, scanned alone, gives the tags that are inside the section, and what
its sections keep is the same. `parse_raw` puts this together.
-/

namespace Mustache

/-- A part of a template, without literal text, indents and places. -/
inductive Outline where
  | interpolation (path : String) (escaped : Bool)
  | block (path : String) (inverted : Bool) (inside : List Outline) (raw : String)
      (delimiters : Delimiters)
  | partialTag (name : String)
  | comment (text : String)
  deriving Repr

namespace Node

mutual

/-- The outline of a node; a text has none. -/
def outline : Node → List Outline
  | .text _ => []
  | .interpolation path escaped _ => [.interpolation path escaped]
  | .block path inverted children raw delimiters _ _ =>
    [.block path inverted (outlineAll children) raw delimiters]
  | .partialTag name _ _ => [.partialTag name]
  | .comment s _ => [.comment s]

def outlineAll : List Node → List Outline
  | [] => []
  | node :: nodes => outline node ++ outlineAll nodes

end

theorem sectionsAll_trans {s t : Section} {nodes : List Node} (hs : s ∈ sectionsAll nodes)
    (ht : t ∈ sectionsAll s.children) : t ∈ sectionsAll nodes := by
  induction nodes using Node.forestInduction with
  | nil => cases hs
  | block path inverted children raw delimiters opening closing nodes ihc ih =>
    rw [sectionsAll, sections, List.cons_append, List.mem_cons, List.mem_append] at hs ⊢
    rcases hs with rfl | hs | hs
    · exact .inr (.inl ht)
    · exact .inr (.inl (ihc hs))
    · exact .inr (.inr (ih hs))
  | _ =>
    rename_i ih
    exact ih hs

end Node

open Node

/-! ## Reading a tree off its tags -/

section Reading

variable {front : List Char} {nodes nodes' : List Node} {more more' : List (Token × Span)}

/-- The same tag, further back. -/
def KeptMoved (front : List Char) (tag moved : Token × Span) : Prop :=
  tag.1 = moved.1 ∧ tag.2.Moved front moved.2

/-- The tags of a tree end here: there are no more, or the next one closes a section. -/
def EndsTree (tags : List (Token × Span)) : Prop := ∀ tag ∈ tags.head?, tag.1.closes ≠ none

theorem endsTree_nil : EndsTree [] := by simp [EndsTree]

theorem endsTree_close (path : String) (span : Span) (tags : List (Token × Span)) :
    EndsTree ((.sectionClose path, span) :: tags) := by
  simp [EndsTree, Token.closes]

theorem Token.opens_opening (path : String) (inverted : Bool) :
    (Token.opening path inverted).opens = some path := by
  cases inverted <;> rfl

theorem Token.closes_opening (path : String) (inverted : Bool) :
    (Token.opening path inverted).closes = none := by
  cases inverted <;> rfl

theorem Token.ne_opening {path : String} {inverted : Bool} {token : Token}
    (h : token.opens = none) : token ≠ .opening path inverted := by
  rintro rfl
  rw [Token.opens_opening] at h
  cases h

/-- What a node says whose only tag is this one. -/
def Token.outline : Token → List Outline
  | .interpolation path escaped => [.interpolation path escaped]
  | .partialTag name => [.partialTag name]
  | .comment s => [.comment s]
  | _ => []

theorem Node.of_first_tag {node : Node} {first : Token × Span} {rest : List (Token × Span)}
    (h : node.tags ++ more = first :: rest) (hne : node.tags ≠ [])
    (hopens : first.1.opens = none) :
    more = rest ∧ node.outline = first.1.outline ∧ node.sections = [] := by
  cases node with
  | text s => exact absurd rfl hne
  | block =>
    obtain ⟨rfl, -⟩ := List.cons.inj h
    exact absurd rfl (Token.ne_opening hopens)
  | _ =>
    obtain ⟨rfl, rfl⟩ := List.cons.inj h
    exact ⟨rfl, rfl, rfl⟩

theorem Token.opening_inj {path path' : String} {inverted inverted' : Bool}
    (h : Token.opening path inverted = .opening path' inverted') :
    path = path' ∧ inverted = inverted' := by
  cases inverted <;> cases inverted' <;> cases h <;> exact ⟨rfl, rfl⟩

/-- The tags of a tree begin with a tag that closes nothing: behind texts there is a node. -/
theorem exists_first_node {first : Token × Span} {rest : List (Token × Span)}
    (h : tagsAll nodes ++ more = first :: rest) (hmore : EndsTree more)
    (hfirst : first.1.closes = none) :
    ∃ (node : Node) (after : List Node),
      node.tags ++ (tagsAll after ++ more) = first :: rest ∧ node.tags ≠ [] ∧
      outlineAll nodes = node.outline ++ outlineAll after ∧
      sectionsAll nodes = node.sections ++ sectionsAll after := by
  induction nodes with
  | nil =>
    rw [tagsAll, List.nil_append] at h
    exact absurd hfirst (hmore first (by simp [h]))
  | cons node after ih =>
    cases node with
    | text s => exact ih h
    | _ =>
      rw [tagsAll, List.append_assoc] at h
      exact ⟨_, after, h, by simp [Node.tags], rfl, rfl⟩

theorem outlineAll_of_ends {tags : List (Token × Span)} (hends : EndsTree tags)
    (h : List.Forall₂ (KeptMoved front) tags (tagsAll nodes ++ more)) :
    outlineAll nodes = [] ∧ List.Forall₂ (KeptMoved front) tags more := by
  induction nodes with
  | nil => exact ⟨rfl, h⟩
  | cons node nodes ih =>
    cases node with
    | text s => exact ih h
    | block path inverted =>
      cases h with
      | cons hfirst _ =>
        refine absurd ?_ (hends _ rfl)
        rw [hfirst.1]
        exact Token.closes_opening path inverted
    | _ =>
      cases h with
      | cons hfirst _ =>
        refine absurd ?_ (hends _ rfl)
        rw [hfirst.1]
        rfl

/-- The tags of two trees, each followed by something else, are the same, those of the second one
further back. If the sections that correspond to one another keep the same, then the trees have
one outline, and the tags behind them are the same. -/
theorem outlineAll_eq (hmore : EndsTree more) (hmore' : EndsTree more')
    (h : List.Forall₂ (KeptMoved front) (tagsAll nodes ++ more) (tagsAll nodes' ++ more'))
    (hkept : ∀ s ∈ sectionsAll nodes, ∀ s' ∈ sectionsAll nodes',
      s.opening.Moved front s'.opening → s.closing.Moved front s'.closing →
        s.raw = s'.raw ∧ s.delimiters = s'.delimiters) :
    outlineAll nodes = outlineAll nodes' ∧ List.Forall₂ (KeptMoved front) more more' := by
  induction nodes using Node.forestInduction generalizing nodes' more more' with
  | nil =>
    obtain ⟨houtline, hrest⟩ := outlineAll_of_ends hmore h
    exact ⟨houtline.symm, hrest⟩
  | text s nodes ih => exact ih hmore hmore' h hkept
  | block path inverted children raw delimiters opening closing nodes ihc ih =>
    simp only [tagsAll, Node.tags, List.cons_append, List.append_assoc, List.nil_append] at h
    obtain ⟨first, rest, hfirst, hrest, htags⟩ := List.forall₂_cons_left_iff.1 h
    obtain ⟨node, after, hnode, hne, houtline, hsections⟩ :=
      exists_first_node htags hmore' (hfirst.1 ▸ Token.closes_opening path inverted)
    rw [hsections] at hkept
    cases node with
    | block path' inverted' children' raw' delimiters' opening' closing' =>
      simp only [Node.tags, List.cons_append, List.append_assoc, List.nil_append,
        List.cons.injEq] at hnode
      obtain ⟨rfl, rfl⟩ := hnode
      obtain ⟨rfl, rfl⟩ := Token.opening_inj hfirst.1
      obtain ⟨hchildren, hrest⟩ := ihc (endsTree_close path closing _)
        (endsTree_close path closing' _) hrest
        fun s hs s' hs' =>
          hkept s (by simp [sectionsAll, sections, hs]) s' (by simp [sections, hs'])
      obtain ⟨hclosing, hrest⟩ := List.forall₂_cons.1 hrest
      obtain ⟨hnodes, hrest⟩ := ih hmore hmore' hrest
        fun s hs s' hs' => hkept s (by simp [sectionsAll, hs]) s' (by simp [hs'])
      obtain ⟨hraw, hdelimiters⟩ : raw = raw' ∧ delimiters = delimiters' :=
        hkept _ List.mem_cons_self _ List.mem_cons_self hfirst.2 hclosing.2
      refine ⟨?_, hrest⟩
      rw [houtline, outlineAll, outline, outline, hchildren, hnodes, hraw, hdelimiters]
    | text s => exact absurd rfl hne
    | _ =>
      obtain ⟨rfl, -⟩ := List.cons.inj hnode
      exact absurd hfirst.1.symm (Token.ne_opening rfl)
  | _ =>
    rename_i ih
    simp only [tagsAll, Node.tags, List.cons_append, List.nil_append] at h
    obtain ⟨first, rest, hfirst, hrest, htags⟩ := List.forall₂_cons_left_iff.1 h
    obtain ⟨node, after, hnode, hne, houtline, hsections⟩ :=
      exists_first_node htags hmore' (hfirst.1 ▸ rfl)
    obtain ⟨rfl, hsame, hleaf⟩ := node.of_first_tag hnode hne (hfirst.1 ▸ rfl)
    rw [hsections, hleaf] at hkept
    obtain ⟨hnodes, hrest⟩ := ih hmore hmore' hrest hkept
    refine ⟨?_, hrest⟩
    rw [houtline, hsame, ← hfirst.1, outlineAll, hnodes]
    rfl

end Reading

/-! ## Tags of a tree -/

section Tags

variable {front : List Char} {tags inside : List SpannedToken} {nodes : List Node}

theorem exists_of_keptTags {before after : List (Token × Span)} {token : Token} {span : Span}
    (h : keptTags tags = before ++ (token, span) :: after) :
    ∃ tags₁ tag tags₂, tags = tags₁ ++ tag :: tags₂ ∧ keptTags tags₁ = before ∧
      tag.token = token ∧ tag.span = span ∧ keptTags tags₂ = after := by
  obtain ⟨kept₁, kept, hkept, hbefore, hkept'⟩ := List.map_eq_append_iff.1 h
  obtain ⟨tag, kept₂, rfl, htag, hafter⟩ := List.map_eq_cons_iff.1 hkept'
  obtain ⟨tags₁, tags', rfl, rfl, htags'⟩ := List.filter_eq_append_iff.1 hkept
  obtain ⟨changes, tags₂, rfl, hchanges, -, rfl⟩ := List.filter_eq_cons_iff.1 htags'
  obtain ⟨rfl, rfl⟩ := Prod.mk.inj htag
  refine ⟨tags₁ ++ changes, tag, tags₂, by rw [List.append_assoc], ?_, rfl, rfl, hafter⟩
  rw [keptTags_append, keptTags, keptTags, hbefore, List.filter_eq_nil_iff.2 hchanges]
  exact List.append_nil before

/-- Changes of delimiters open and close nothing. -/
theorem balanced_of_keptTags_eq_nil (h : keptTags tags = []) : Balanced tags := by
  induction tags with
  | nil => exact .nil
  | cons tag tags ih =>
    rw [← List.singleton_append, keptTags_append, List.append_eq_nil_iff] at h
    obtain ⟨token, span, standalone⟩ := tag
    cases token with
    | delimiterChange d => exact .other rfl rfl (ih h.2)
    | _ => cases h.1

theorem exists_of_tokens {before after : List Token} {token : Token}
    (h : (keptTags tags).map (·.1) = before ++ token :: after) :
    ∃ tags₁ tag tags₂, tags = tags₁ ++ tag :: tags₂ ∧ (keptTags tags₁).map (·.1) = before ∧
      tag.token = token ∧ (keptTags tags₂).map (·.1) = after := by
  obtain ⟨kept₁, kept, hkept, rfl, hkept'⟩ := List.map_eq_append_iff.1 h
  obtain ⟨⟨token, span⟩, kept₂, rfl, rfl, rfl⟩ := List.map_eq_cons_iff.1 hkept'
  obtain ⟨tags₁, tag, tags₂, htags, rfl, htoken, -, rfl⟩ := exists_of_keptTags hkept
  exact ⟨tags₁, tag, tags₂, htags, rfl, htoken, rfl⟩

theorem exists_first_token {after : List Token} {token : Token}
    (h : (keptTags tags).map (·.1) = token :: after) :
    ∃ changes tag tags', tags = changes ++ tag :: tags' ∧ Balanced changes ∧
      tag.token = token ∧ (keptTags tags').map (·.1) = after := by
  rw [← List.nil_append (token :: after)] at h
  obtain ⟨changes, tag, tags', htags, hchanges, htoken, hafter⟩ := exists_of_tokens h
  exact ⟨changes, tag, tags', htags, balanced_of_keptTags_eq_nil (List.map_eq_nil_iff.1 hchanges),
    htoken, hafter⟩

theorem balanced_of_tagsAll (h : (keptTags tags).map (·.1) = (tagsAll nodes).map (·.1)) :
    Balanced tags := by
  induction nodes using Node.forestInduction generalizing tags with
  | nil => exact balanced_of_keptTags_eq_nil (List.map_eq_nil_iff.1 h)
  | text s nodes ih => exact ih h
  | block path inverted children raw delimiters opening closing nodes ihc ih =>
    simp only [tagsAll, Node.tags, List.cons_append, List.append_assoc, List.nil_append,
      List.map_cons, List.map_append] at h
    obtain ⟨changes, tag, tags', rfl, hchanges, hopening, h⟩ := exists_first_token h
    obtain ⟨inside, tag', tags, rfl, hinside, hclosing, h⟩ := exists_of_tokens h
    have hopens : tag.token.opens = some path := hopening ▸ Token.opens_opening path inverted
    have hcloses : tag'.token.closes = some path := hclosing ▸ rfl
    exact hchanges.append (.nest hopens (ihc hinside) hcloses (ih h))
  | _ =>
    rename_i ih
    obtain ⟨changes, tag, tags, rfl, hchanges, htoken, h⟩ := exists_first_token h
    exact hchanges.append (.other (htoken ▸ rfl) (htoken ▸ rfl) (ih h))

theorem keptTags_moved (h : List.Forall₂ (SpannedToken.Moved front) tags inside) :
    List.Forall₂ (KeptMoved front) (keptTags tags) (keptTags inside) := by
  induction h with
  | nil => exact .nil
  | @cons tag moved tags inside hmoved _ ih =>
    rw [keptTags, keptTags, List.filter_cons, List.filter_cons, ← hmoved.token]
    split
    · exact .cons ⟨hmoved.token, hmoved.span⟩ ih
    · exact ih

theorem inForceBehind_moved (h : List.Forall₂ (SpannedToken.Moved front) tags inside)
    (d : Delimiters) : inForceBehind d tags = inForceBehind d inside := by
  induction h generalizing d with
  | nil => rfl
  | cons hmoved _ ih =>
    rw [inForceBehind, List.foldl_cons, inForceBehind, List.foldl_cons, hmoved.token]
    exact ih _

theorem InOrder.start_lt {before after : List SpannedToken} {tag tag' : SpannedToken}
    (h : InOrder ((before ++ tag :: after).map (·.span))) (htag' : tag' ∈ after) :
    tag.span.start.offset < tag'.span.start.offset := by
  rw [List.map_append, List.map_cons] at h
  have hnonempty := h.nonempty tag.span (by simp)
  have hle := (List.pairwise_cons.1 (List.pairwise_append.1 h.pairwise).2.1).1 tag'.span
    (List.mem_map_of_mem htag')
  omega

theorem InOrder.split_unique {before before' after after' : List SpannedToken}
    {tag tag' : SpannedToken} (h : InOrder ((before ++ tag :: after).map (·.span)))
    (hsplit : before ++ tag :: after = before' ++ tag' :: after')
    (hstart : tag.span.start.offset = tag'.span.start.offset) : before = before' := by
  rcases List.append_eq_append_iff.1 hsplit with ⟨r, rfl, hr⟩ | ⟨r, rfl, hr⟩
  · cases r with
    | nil => exact (List.append_nil before).symm
    | cons first r =>
      have hmem : tag' ∈ after := by simp [(List.cons.inj hr).2]
      have := h.start_lt hmem
      omega
  · cases r with
    | nil => exact List.append_nil before'
    | cons first r =>
      rw [hsplit] at h
      have hmem : tag ∈ after' := by simp [(List.cons.inj hr).2]
      have := h.start_lt hmem
      omega

end Tags

/-! ## The text inside a section -/

section Raw

variable {source : List Char} {d : Delimiters} {tags : List SpannedToken} {s t : Section}

theorem Section.Kept.delimiters_eq (h : s.Kept source d tags)
    (horder : InOrder (tags.map (·.span))) {before after : List SpannedToken} {tag : SpannedToken}
    (htags : tags = before ++ tag :: after)
    (hstart : tag.span.start.offset = s.opening.start.offset) :
    s.delimiters = inForceBehind d before := by
  obtain ⟨before', tag', after', htags', -, hspan, hdelimiters⟩ := h.openedIn
  rw [hdelimiters]
  rw [htags'] at horder htags
  rw [horder.split_unique htags (by rw [hspan, hstart])]

theorem exists_of_moved {front : List Char} {before after moved : List SpannedToken}
    {tag : SpannedToken}
    (h : List.Forall₂ (SpannedToken.Moved front) (before ++ tag :: after) moved) :
    ∃ before' tag' after', moved = before' ++ tag' :: after' ∧
      List.Forall₂ (SpannedToken.Moved front) before before' ∧ tag.Moved front tag' := by
  induction before generalizing moved with
  | nil =>
    obtain ⟨tag', after', htag, -, rfl⟩ := List.forall₂_cons_left_iff.1 h
    exact ⟨[], tag', after', rfl, .nil, htag⟩
  | cons first before ih =>
    obtain ⟨first', moved', hfirst, hmoved, rfl⟩ := List.forall₂_cons_left_iff.1 h
    obtain ⟨before', tag', after', rfl, hbefore, htag⟩ := ih hmoved
    exact ⟨first' :: before', tag', after', rfl, .cons hfirst hbefore, htag⟩

theorem Section.Kept.same_moved {front text more : List Char}
    {before inside after inside' : List SpannedToken}
    (hs : s.Kept text (inForceBehind d before) inside')
    (ht : t.Kept (front ++ (text ++ more)) d (before ++ (inside ++ after)))
    (horder : InOrder ((before ++ (inside ++ after)).map (·.span)))
    (hstands : ∀ tag ∈ inside', tag.span.Stands text)
    (hinside : List.Forall₂ (SpannedToken.Moved front) inside' inside)
    (hmem : ∃ tag ∈ inside', tag.span = s.closing)
    (hopening : s.opening.Moved front t.opening) (hclosing : s.closing.Moved front t.closing) :
    s.raw = t.raw ∧ s.delimiters = t.delimiters := by
  obtain ⟨before₁, tag, after₁, rfl, -, hspan, hdelimiters⟩ := hs.openedIn
  obtain ⟨closing, hclosingMem, hclosingSpan⟩ := hmem
  have hopeningStands : s.opening.Stands text := hspan ▸ hstands tag (by simp)
  have hclosingStands : s.closing.Stands text := hclosingSpan ▸ hstands closing hclosingMem
  constructor
  · rw [hs.raw, ht.raw, hopening.stop, hclosing.start, Text.slice_under,
      slice_above_stands hopeningStands hclosingStands]
  · obtain ⟨before₂, tag', after₂, rfl, hbefore, htag⟩ := exists_of_moved hinside
    have hstart : tag'.span.start.offset = t.opening.start.offset := by
      rw [htag.span.start, hspan, hopening.start]
    have htags : before ++ ((before₂ ++ tag' :: after₂) ++ after) =
        (before ++ before₂) ++ tag' :: (after₂ ++ after) := by simp
    rw [hdelimiters, ht.delimiters_eq horder htags hstart, inForceBehind_append,
      inForceBehind_moved hbefore]

theorem Section.Kept.split_tags {nodes : List Node} (h : s.Kept source d tags)
    (horder : InOrder (tags.map (·.span))) (hnodes : tagsAll nodes = keptTags tags)
    (hs : s ∈ sectionsAll nodes) :
    ∃ before opening inside closing after,
      tags = before ++ opening :: (inside ++ closing :: after) ∧
      opening.token = .opening s.path s.inverted ∧ opening.span = s.opening ∧
      closing.span = s.closing ∧ keptTags inside = tagsAll s.children ∧
      s.delimiters = inForceBehind d before := by
  obtain ⟨keptBefore, keptAfter, hkept⟩ := Section.tags_infix hs
  rw [hnodes, Section.tags] at hkept
  simp only [List.cons_append, List.append_assoc, List.nil_append] at hkept
  obtain ⟨before, opening, rest, htags, -, hopening, hopeningSpan, hrest⟩ :=
    exists_of_keptTags hkept.symm
  obtain ⟨inside, closing, after, rfl, hinside, -, hclosingSpan, -⟩ := exists_of_keptTags hrest
  exact ⟨before, opening, inside, closing, after, htags, hopening, hopeningSpan, hclosingSpan,
    hinside, h.delimiters_eq horder htags (by rw [hopeningSpan])⟩

/-- The text inside a section is a template under the pair that the section keeps, and the outline
of its tree is that of what is inside the section. -/
theorem parse_raw {tree : Tree} (h : Tree.parse source d = .ok tree) :
    ∀ s ∈ sectionsAll tree, ∃ inner, Tree.parse s.raw.toList s.delimiters = .ok inner ∧
      outlineAll inner = outlineAll s.children := by
  intro s hs
  obtain ⟨pair, rfl⟩ := usable_of_parse h
  obtain ⟨items, hscans, htree, hkept⟩ := parse_tracks h
  have horder := hscans.inOrder
  obtain ⟨before, opening, inside, closing, after, htags, hopening, hopeningSpan, hclosingSpan,
    hinside, hdelimiters⟩ := (hkept s hs).split_tags horder htree hs
  obtain ⟨front, more, pair', items', hsource, hpair', hscans', hmoved⟩ := hscans.between htags
  rw [hopeningSpan, hclosingSpan] at hsource hscans'
  have hraw := (hkept s hs).raw
  generalize Text.slice source s.opening.stop.offset s.closing.start.offset = text at *
  have hbehind (d : Delimiters) : opening.token.inForce d = d := by
    rw [hopening]
    cases s.inverted <;> rfl
  rw [hbehind, ← hdelimiters] at hpair'
  rw [hraw, String.toList_ofList, ← hpair']
  -- The tags inside the section are those of a tree, so the text is a template.
  have hsame := keptTags_moved hmoved
  rw [hinside] at hsame
  have htokens : (keptTags (Scanned.tags items')).map (·.1) = (tagsAll s.children).map (·.1) := by
    rw [← List.forall₂_eq_eq_eq, List.forall₂_map_left_iff, List.forall₂_map_right_iff]
    exact hsame.imp fun _ _ hmoved => hmoved.1
  obtain ⟨inner, hinner⟩ := parse_of_balanced hscans' (balanced_of_tagsAll htokens)
  refine ⟨inner, hinner, ?_⟩
  obtain ⟨items'', hscans'', hinnerTags, hinnerKept⟩ := parse_tracks hinner
  obtain ⟨rfl, -⟩ := hscans''.unique hscans'
  rw [← hinnerTags, ← List.append_nil (tagsAll inner), ← List.append_nil (tagsAll s.children)]
    at hsame
  refine (outlineAll_eq endsTree_nil endsTree_nil hsame fun u hu t ht => ?_).1
  have hu' := hinnerKept u hu
  have ht' := hkept t (sectionsAll_trans hs ht)
  have hfront : pair'.val = inForceBehind pair.val (before ++ [opening]) := by
    rw [hpair', hdelimiters, inForceBehind_concat, hbehind]
  have hclosing : (Token.sectionClose u.path, u.closing) ∈ u.tags := by simp [Section.tags]
  have hmem := hinnerTags ▸ (Section.tags_infix hu).subset hclosing
  rw [hfront] at hu'
  rw [List.append_cons] at htags
  rw [htags] at ht' horder
  rw [hsource] at ht'
  exact hu'.same_moved ht' horder (fun tag htag => (hscans''.stands tag htag).1) hmoved
    (mem_keptTags hmem)

/-- Changes of delimiters in front of a section and inside it. -/
theorem parse_raw_switched :
    let source := "<%=[ ]=%>[#a]x[=<% %>=]<%^b%><%>p%><%/b%><%/a%>".toList
    ∃ tree, Tree.parse source ⟨"<%", "%>"⟩ = .ok tree ∧
      (∀ s ∈ sectionsAll tree, ∃ inner, Tree.parse s.raw.toList s.delimiters = .ok inner ∧
        outlineAll inner = outlineAll s.children) ∧
      (sectionsAll tree).map (fun s => (s.path, s.raw, s.delimiters)) =
        [("a", "x[=<% %>=]<%^b%><%>p%><%/b%>", ⟨"[", "]"⟩), ("b", "<%>p%>", ⟨"<%", "%>"⟩)] := by
  intro source
  have hsections : (Tree.parse source ⟨"<%", "%>"⟩).toOption.map (fun tree =>
      (sectionsAll tree).map fun s => (s.path, s.raw, s.delimiters)) =
        some [("a", "x[=<% %>=]<%^b%><%>p%><%/b%>", ⟨"[", "]"⟩),
          ("b", "<%>p%>", ⟨"<%", "%>"⟩)] := by decide +kernel
  cases hparse : Tree.parse source ⟨"<%", "%>"⟩ with
  | error e =>
    rw [hparse] at hsections
    cases hsections
  | ok tree =>
    rw [hparse] at hsections
    exact ⟨tree, rfl, parse_raw hparse, Option.some.inj hsections⟩

end Raw

end Mustache
