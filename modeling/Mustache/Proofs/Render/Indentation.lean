import Mustache.Proofs.Render.Nesting
import Mustache.Proofs.Scanner.Lines
import Mustache.Proofs.Text.Lines

/-!
# Mustache.Proofs.Render.Indentation

What stands before the lines of partials in partials.

A partial writes its text indented, and a partial inside of it was indented before. On texts the two
indentations are one (`indented_indented`), so a rendering that goes through tag after tag
(`Renderer.Leads`) indents by all of them (`Renderer.Leads.execute`).
-/

namespace Mustache

variable {η σ : Type} {r : Renderer η σ}

namespace Renderer

/-! ## Texts -/

theorem indented_of_off (hoff : r.options.disableIndentation = false) (indent text : String) :
    (r.indented indent text).toList = Text.indentLines indent.toList text.toList := by
  rw [indented, hoff, if_neg Bool.false_ne_true, String.toList_ofList]

/-- Only the inner indentation has to be free of line feeds. -/
theorem indented_indented (r : Renderer η σ) (indent : String) {inner : String}
    (hinner : '\n' ∉ inner.toList) (text : String) :
    r.indented indent (r.indented inner text) = r.indented (indent ++ inner) text := by
  cases hoption : r.options.disableIndentation with
  | true =>
    rw [indented, indented, indented, hoption, if_pos rfl, if_pos rfl, if_pos rfl,
      String.append_assoc]
  | false =>
    rw [← String.toList_inj, indented_of_off hoption, indented_of_off hoption,
      indented_of_off hoption, Text.indentLines_indentLines hinner, String.toList_append]

theorem indented_append (hoff : r.options.disableIndentation = false) (indent : String)
    {above : String} (h : EndsLine above.toList) (below : String) :
    r.indented indent (above ++ below) = r.indented indent above ++ r.indented indent below := by
  rw [← String.toList_inj, String.toList_append, indented_of_off hoff, indented_of_off hoff,
    indented_of_off hoff, String.toList_append, Text.indentLines_eq_flatMap,
    Text.indentLines_eq_flatMap, Text.indentLines_eq_flatMap]
  rcases h with h | ⟨s, h⟩
  · rw [h]
    rfl
  · rw [h, List.append_assoc, List.singleton_append, Text.lines_append, List.flatMap_append]

theorem endsLine_indented (hoff : r.options.disableIndentation = false) (indent : String)
    {text : String} (h : EndsLine text.toList) : EndsLine (r.indented indent text).toList := by
  rw [indented_of_off hoff]
  rcases h with h | ⟨s, h⟩
  · rw [h]
    exact .inl rfl
  · rw [h]
    exact .inr (Text.exists_indentFrom_concat true s '\n')

/-! ## Renderings -/

/-- The instructions are a tag for a partial and nothing else, those of the partial are too, and so
on down to `inner`. The tags have these names and indentations, outermost first; `lookups` of them
are looked up, which changes `store` into `store'`. -/
inductive Leads (r : Renderer η σ) (inner : List Op) (store' : σ) :
    (lookups : Nat) → List (String × String) → List Op → σ → Prop where
  | here : Leads r inner store' 0 [] inner store'
  | inlined {lookups tags name indent body store} :
      Leads r inner store' lookups tags body store →
      Leads r inner store' lookups ((name, indent) :: tags) [.inlined name indent body] store
  | lookedUp {lookups tags name indent template store next} :
      r.resolver.partialTemplate name store = (.ok (some template), next) →
      Leads r inner store' lookups tags template.ops next →
      Leads r inner store' (lookups + 1) ((name, indent) :: tags) [.partialRef name indent] store

/-- The indentations of tags, one behind the other. -/
def totalIndent (tags : List (String × String)) : String := String.join (tags.map (·.2))

theorem totalIndent_cons (tag : String × String) (tags : List (String × String)) :
    totalIndent (tag :: tags) = tag.2 ++ totalIndent tags := by
  rw [totalIndent, totalIndent, List.map_cons, String.join_cons]

theorem not_mem_totalIndent {tags : List (String × String)}
    (h : ∀ tag ∈ tags, '\n' ∉ tag.2.toList) : '\n' ∉ (totalIndent tags).toList := by
  induction tags with
  | nil => exact List.not_mem_nil
  | cons tag tags ih =>
    rw [List.forall_mem_cons] at h
    rw [totalIndent_cons, String.toList_append, List.mem_append, not_or]
    exact ⟨h.1, ih h.2⟩

end Renderer

def Scene.enter (scene : Scene η σ) (n : Nat) : Scene η σ :=
  { scene with context := { scene.context with partialDepth := scene.context.partialDepth + n } }

def Scene.leave (scene : Scene η σ) (n : Nat) : Scene η σ :=
  { scene with context := { scene.context with partialDepth := scene.context.partialDepth - n } }

theorem Scene.enter_enter (scene : Scene η σ) (n m : Nat) :
    (scene.enter n).enter m = scene.enter (n + m) := by
  simp only [enter, Nat.add_assoc]

namespace Renderer

/-- Inside of all the tags, and indented once, by all their indentations. -/
def insideTags (r : Renderer η σ) (tags : List (String × String)) (body : Render η σ String) :
    Render η σ String := fun scene =>
  let (text, next) := body (scene.enter tags.length)
  (text.map (r.indented (totalIndent tags)), next.leave tags.length)

theorem insideTags_nil (r : Renderer η σ) (body : Render η σ String) :
    r.insideTags [] body = body := by
  have hid : r.indented (totalIndent []) = id := funext r.indented_empty
  funext scene
  rw [insideTags, hid, Except.map_id]
  rfl

theorem bind_indented_apply (indent : String) {body : Render η σ String} {scene : Scene η σ}
    {result : Except Error String × Scene η σ} (h : body scene = result) :
    (do let text ← body; pure (r.indented indent text) : Render η σ String) scene =
      (result.1.map (r.indented indent), result.2) := by
  rw [bind_apply, h]
  rcases result with ⟨_ | text, next⟩ <;> rfl

/-- What the outermost tag writes. In `scene'` is kept what is kept once the tags inside of it have
been looked up. -/
theorem insidePartial_insideTags {name indent : String} {tags : List (String × String)}
    (hfeed : ∀ tag ∈ tags, '\n' ∉ tag.2.toList) {body written : Render η σ String}
    {scene scene' : Scene η σ} (hdepth : scene.context.partialDepth < maxPartialDepth)
    (hwritten : written (scene.enter 1) =
      ((r.insideTags tags body (scene'.enter 1)).1.map (r.indented indent),
        (r.insideTags tags body (scene'.enter 1)).2)) :
    insidePartial name written scene = r.insideTags ((name, indent) :: tags) body scene' := by
  have hindent : r.indented (totalIndent ((name, indent) :: tags)) =
      r.indented indent ∘ r.indented (totalIndent tags) := by
    funext text
    rw [totalIndent_cons]
    exact (indented_indented r indent (not_mem_totalIndent hfeed) text).symm
  rw [insidePartial, if_pos hdepth]
  show ((written (scene.enter 1)).1, (written (scene.enter 1)).2.leave 1) = _
  rw [hwritten, insideTags, insideTags, List.length_cons, hindent, Scene.enter_enter,
    Nat.add_comm 1]
  rcases body (scene'.enter (tags.length + 1)) with ⟨_ | text, next⟩ <;> rfl

theorem renderAll_singleton (enter : List Op → Render η σ String) (op : Op) :
    Op.renderAll r enter [op] = Op.render r enter op := by
  simp only [Op.renderAll, pure_bind, String.append_empty, bind_pure]

/-- A rendering that goes through tags, however deep and whether compiled in or looked up, is the
rendering of the innermost partial, indented by all tags at once. -/
theorem Leads.execute {inner ops : List Op} {store store' : σ} {lookups : Nat}
    {tags : List (String × String)} (h : r.Leads inner store' lookups tags ops store)
    (hfeed : ∀ tag ∈ tags, '\n' ∉ tag.2.toList) (limit : Nat) {c : Context} (kept : η)
    (hdepth : c.partialDepth + tags.length ≤ maxPartialDepth) :
    r.execute (limit + lookups + 1) ops ⟨c, kept, store⟩ =
      r.insideTags tags (r.execute (limit + 1) inner) ⟨c, kept, store'⟩ := by
  induction h generalizing c with
  | here => rw [insideTags_nil, Nat.add_zero]
  | inlined _ ih =>
    rw [List.forall_mem_cons] at hfeed
    rw [List.length_cons, Nat.add_comm _ 1, ← Nat.add_assoc] at hdepth
    have hbody := ih hfeed.2 (c := { c with partialDepth := c.partialDepth + 1 }) hdepth
    rw [Renderer.execute, renderAll_singleton, Op.render]
    refine insidePartial_insideTags hfeed.2 (Nat.le_trans (Nat.le_add_right _ _) hdepth) ?_
    exact bind_indented_apply _ hbody
  | lookedUp hfound _ ih =>
    rw [List.forall_mem_cons] at hfeed
    rw [List.length_cons, Nat.add_comm _ 1, ← Nat.add_assoc] at hdepth
    have hbody := ih hfeed.2 (c := { c with partialDepth := c.partialDepth + 1 }) hdepth
    rw [Renderer.execute, renderAll_singleton, Op.render]
    refine insidePartial_insideTags hfeed.2 (Nat.le_trans (Nat.le_add_right _ _) hdepth) ?_
    rw [bind_apply, Renderer.partialTemplate]
    simp only [Scene.enter, hfound]
    exact bind_indented_apply _ hbody

/-! ## The laws of indentation -/

/-- What stands before the lines of texts in texts, and of partials in partials: the indentations
of all of them, outermost first. With indentation enabled no line is added or lost, and the text
can be read back. -/
theorem indented_laws (r : Renderer η σ) {outer inner : String} (houter : '\n' ∉ outer.toList)
    (hinner : '\n' ∉ inner.toList) (text : String) :
    r.indented outer (r.indented inner text) = r.indented (outer ++ inner) text ∧
    (r.options.disableIndentation = false →
      (Text.lines (r.indented outer text).toList).length = (Text.lines text.toList).length ∧
      (r.indented outer text = "" ↔ text = "") ∧
      Text.outdentLines? outer.toList (r.indented outer text).toList = some text.toList ∧
      ∀ above below : String, EndsLine above.toList → EndsLine text.toList →
        r.indented outer (above ++ r.indented inner text ++ below) =
          r.indented outer above ++ r.indented (outer ++ inner) text ++ r.indented outer below) ∧
    ∀ {ops ops' : List Op} {store store' : σ} {lookups : Nat} {tags : List (String × String)},
      r.Leads ops' store' lookups tags ops store → (∀ tag ∈ tags, '\n' ∉ tag.2.toList) →
      ∀ (limit : Nat) {c : Context} (kept : η), c.partialDepth + tags.length ≤ maxPartialDepth →
        r.execute (limit + lookups + 1) ops ⟨c, kept, store⟩ =
          r.insideTags tags (r.execute (limit + 1) ops') ⟨c, kept, store'⟩ := by
  refine ⟨indented_indented r outer hinner text, fun hoff => ⟨?_, ?_, ?_, ?_⟩, Leads.execute⟩
  · rw [indented_of_off hoff, Text.length_lines_indentLines houter]
  · rw [← String.toList_inj, ← String.toList_inj, indented_of_off hoff]
    exact Text.indentLines_eq_nil_iff
  · rw [indented_of_off hoff, Text.outdentLines?_indentLines houter]
  · intro above below habove htext
    have hwritten : EndsLine (r.indented inner text).toList := endsLine_indented hoff inner htext
    rw [String.append_assoc, indented_append hoff outer habove, indented_append hoff outer hwritten,
      indented_indented r outer hinner, String.append_assoc]

/-- A partial that was compiled in, around one that is looked up. -/
theorem indented_laws_nested :
    let found : Template := ⟨{}, [.text "x\n\ny\n"], []⟩
    let r : Renderer Unit Unit := ⟨{}, .empty, fun _ _ => (.ok (some found), ()),
      fun _ _ _ => (.ok found, ())⟩
    let ops : List Op := [.inlined "p" "  " [.partialRef "q" "\t"]]
    let tags := [("p", "  "), ("q", "\t")]
    let scene : Scene Unit Unit := ⟨.empty, (), ()⟩
    '\n' ∉ "  ".toList ∧ '\n' ∉ "\t".toList ∧ r.options.disableIndentation = false ∧
      r.Leads found.ops () 1 tags ops () ∧
      r.indented "  " (r.indented "\t" "x\n\ny\n") = r.indented "  \t" "x\n\ny\n" ∧
      Text.outdentLines? "  ".toList (r.indented "  " "x\n\ny\n").toList =
        some "x\n\ny\n".toList ∧
      r.indented "  " ("-\n" ++ r.indented "\t" "x\n\ny\n" ++ "-") =
        r.indented "  " "-\n" ++ r.indented "  \t" "x\n\ny\n" ++ r.indented "  " "-" ∧
      r.execute 2 ops scene = r.insideTags tags (r.execute 1 found.ops) scene ∧
      (r.execute 2 ops scene).1 = .ok "  \tx\n  \t\n  \ty\n" := by
  intro found r ops tags scene
  have houter : '\n' ∉ "  ".toList := by decide
  have hinner : '\n' ∉ "\t".toList := by decide
  have hleads : r.Leads found.ops () 1 tags ops () :=
    .inlined (.lookedUp rfl .here)
  obtain ⟨hcomposed, htext, hrun⟩ := indented_laws r houter hinner "x\n\ny\n"
  obtain ⟨-, -, houtdented, hframed⟩ := htext rfl
  refine ⟨houter, hinner, rfl, hleads, hcomposed, houtdented, ?_, ?_, by decide +kernel⟩
  · exact hframed "-\n" "-" (.inr ⟨['-'], rfl⟩) (.inr ⟨"x\n\ny".toList, by decide⟩)
  · exact hrun hleads (by decide) 0 () (by decide)

end Renderer

end Mustache
