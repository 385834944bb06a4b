import Mustache.Proofs.Engine.Requests
import Mustache.Proofs.Render.Nesting

/-!
# Mustache.Proofs.Engine.Repetition

Engines find the same templates again.

Without a cache they read them from files that stay as they are (`Engine.steady_uncached`). With one
they find what they would find without (`Engine.Fits.steady`), where no name of a template leads to
what is in the cache: an engine that looks for templates in the directory that it keeps them in may
find there, the second time, what it kept the first time.
-/

namespace Mustache

namespace Engine

theorem steady_uncached (e : Engine) (files : Files) :
    e.resolver.Steady (Uncached files) fun _ => True :=
  (e.follows Host.empty files).steady

theorem Fits.steady {w : World} {base : Files} {e : Engine} (hw : w.Distinct)
    (hbase : base ∈ w.moments) (he : e.Fits w) :
    e.resolver.Steady (Coherent w base e.options.cacheMode) (· ∈ w.texts) := by
  have hbeside {store : Store} (h : Coherent w base e.options.cacheMode store) :
      Beside w base e.options.cacheMode store ⟨.ofMode .disabled, base⟩ := ⟨h, rfl, rfl⟩
  have hops {a b c : SharedTemplate} (h : a.Alike c) (h' : b.Alike c) :
      a.template.ops = b.template.ops := h.ops.trans h'.ops.symm
  refine ⟨fun name store store' h h' => ?_, fun {source} delimiters store store' hknown h h' => ?_,
    fun name store h => (partialTemplate_beside hw hbase he (hbeside h) name).2.coherent,
    fun {source} delimiters store hknown h =>
      (compileWith_beside hw hbase he (hbeside h) hknown delimiters).2.coherent⟩
  · have hmatches := (partialTemplate_beside hw hbase he (hbeside h) name).1.join
      (partialTemplate_beside hw hbase he (hbeside h') name).1
      (S := Option.Rel fun a b => a.template.ops = b.template.ops) ?_
    · refine hmatches.map fun hrel => ?_
      cases hrel with
      | none => exact .none
      | some hsame => exact .some hsame
    · rintro a b c hac hbc
      cases hac with
      | none =>
        cases hbc with
        | none => exact .none
      | some hac =>
        cases hbc with
        | some hbc => exact .some (hops hac hbc)
  · exact ((compileWith_beside hw hbase he (hbeside h) hknown delimiters).1.join
      (compileWith_beside hw hbase he (hbeside h') hknown delimiters).1
      (S := fun a b => a.template.ops = b.template.ops) hops).map id

end Engine

end Mustache
