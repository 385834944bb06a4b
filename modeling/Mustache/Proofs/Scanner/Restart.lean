import Mustache.Proofs.Scanner.Tiling

/-!
# Mustache.Proofs.Scanner.Restart

A scanner that is stepped and rewound in any order.

Whoever holds a scanner may ask it for the next item and rewind it at any moment
(`Scanner.Request`, `Scanner.serve`). A step changes neither the source nor the pair to go back to
(`Scanner.next_initial`), so a scanner that has only been stepped is rewound to the one that was
made (`Scanner.reset_after`). That is the invariant of a run: between two requests the scanner is
the new one behind as many steps as there were since it was last rewound. So the answers are those
of a list that is read from its start again at each rewinding (`Request.replay`), whatever was
scanned, changed or refused before: `Scanner.serve_replays`.
-/

namespace Mustache.Scanner

inductive Request where
  | next
  | reset
  deriving DecidableEq, Repr

namespace Request

/-- How many items were asked for since the last rewinding, `n` of them before these requests. -/
def position (n : Nat) : List Request → Nat
  | [] => n
  | .next :: requests => position (n + 1) requests
  | .reset :: requests => position 0 requests

/-- What is answered out of a list, item number `n` being the next; nothing behind its end. -/
def replay {α : Type} (items : List α) (n : Nat) : List Request → List (Option α)
  | [] => []
  | .next :: requests => items[n]? :: replay items (n + 1) requests
  | .reset :: requests => replay items 0 requests

end Request

/-- Obeys one request after the other. Only those for an item are answered. -/
def serve (s : Scanner) : List Request → List (Option (Except Error Scanned)) × Scanner
  | [] => ([], s)
  | .next :: requests =>
    let (answer, s') := s.next
    let (answers, s'') := s'.serve requests
    (answer :: answers, s'')
  | .reset :: requests => s.reset.serve requests

/-- What a scanner gives until it ends: its items, and then its error, if it has one. -/
def transcript (s : Scanner) : List (Except Error Scanned) :=
  s.items.1.map Except.ok ++ s.items.2.toList.map Except.error

def after (s : Scanner) : Nat → Scanner
  | 0 => s
  | n + 1 => (s.after n).next.2

/-! ## What a step leaves alone -/

theorem tagAt_initial {s s' : Scanner} {after : List Char} {tag : SpannedToken}
    (h : s.tagAt after = .ok (tag, s')) : s'.source = s.source ∧ s'.initial = s.initial := by
  simp only [tagAt] at h
  split at h
  · cases h
  · split at h
    · cases h
    · cases h
      exact ⟨rfl, rfl⟩

theorem next_initial (s : Scanner) :
    s.next.2.source = s.source ∧ s.next.2.initial = s.initial := by
  unfold next
  split
  · exact ⟨rfl, rfl⟩
  · split
    · split <;> exact ⟨rfl, rfl⟩
    · dsimp only
      split
      · exact ⟨rfl, rfl⟩
      · rename_i htag
        obtain ⟨hsource, hinitial⟩ := tagAt_initial htag
        exact ⟨hsource, hinitial⟩

theorem after_initial (s : Scanner) (n : Nat) :
    (s.after n).source = s.source ∧ (s.after n).initial = s.initial := by
  induction n with
  | zero => exact ⟨rfl, rfl⟩
  | succ n ih =>
    obtain ⟨hsource, hinitial⟩ := (s.after n).next_initial
    exact ⟨hsource.trans ih.1, hinitial.trans ih.2⟩

/-- A new scanner is rewound to what it was, however far it has been stepped. -/
theorem reset_after (source : List Char) (pair : UsableDelimiters) (n : Nat) :
    ((ofUsable source pair).after n).reset = ofUsable source pair := by
  obtain ⟨hsource, hinitial⟩ := (ofUsable source pair).after_initial n
  rw [reset, hsource, hinitial]
  rfl

/-! ## Runs -/

theorem after_next (s : Scanner) (n : Nat) : s.next.2.after n = s.after (n + 1) := by
  induction n with
  | zero => rfl
  | succ n ih =>
    rw [after, ih]
    rfl

theorem call_eq_next_after (s : Scanner) (n : Nat) : s.call n = (s.after n).next.1 := by
  induction n generalizing s with
  | zero => rfl
  | succ n ih => rw [call, ih, after_next]

theorem next_after (s : Scanner) (n : Nat) :
    (s.after n).next = (s.transcript[n]?, s.after (n + 1)) := by
  rw [transcript, ← s.call_eq, call_eq_next_after]
  rfl

theorem serve_after (source : List Char) (pair : UsableDelimiters) (requests : List Request) :
    ∀ n, ((ofUsable source pair).after n).serve requests =
      (Request.replay (ofUsable source pair).transcript n requests,
        (ofUsable source pair).after (Request.position n requests)) := by
  induction requests with
  | nil => exact fun _ => rfl
  | cons request requests ih =>
    intro n
    cases request with
    | next => simp only [serve, next_after, ih, Request.replay, Request.position]
    | reset =>
      rw [serve, reset_after]
      exact ih 0

/-- Whatever is asked of a new scanner, items and rewindings in any order: since it was last
rewound it has answered as a new one does, its items, then its error, if it has one, and then
nothing for ever; and it is where a new one is behind as many steps. -/
theorem serve_replays (source : List Char) (pair : UsableDelimiters) (requests : List Request) :
    let fresh := ofUsable source pair
    (fresh.serve requests).1 = Request.replay fresh.transcript 0 requests ∧
      (fresh.serve requests).2 = fresh.after (Request.position 0 requests) := by
  intro fresh
  have h : fresh.serve requests = _ := serve_after source pair requests 0
  rw [h]
  exact ⟨rfl, rfl⟩

/-- Rewound behind a change of delimiters and behind an error. -/
example :
    let change : UsableDelimiters := ⟨⟨"|", "|"⟩, by decide⟩
    let fresh := ofUsable "\x7b\x7b=| |=\x7d\x7d|x".toList ⟨.standard, Delimiters.standard_usable⟩
    let answers := (fresh.serve [.next, .next, .next, .reset, .next, .reset, .next, .next]).1
    fresh.next.2.inForce = change ∧ fresh.items.2.isSome = true ∧ fresh.items.1.length = 1 ∧
      answers.map Option.isSome = [true, true, false, true, true, true] ∧
      answers[3]? = answers[0]? ∧ answers[4]? = answers[0]? ∧ answers[5]? = answers[1]? := by
  decide +kernel

end Mustache.Scanner
