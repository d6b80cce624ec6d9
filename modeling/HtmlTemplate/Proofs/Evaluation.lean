import HtmlTemplate.Proofs.Moment
import Mathlib.Control.Monad.Basic
import Mathlib.Data.List.Permutation

/-! Fixed templates are read step by step: their tokens, the tree of their mustaches and the tree of
the whole. -/

namespace HtmlTemplate

section

variable {ε α : Type} {x : Except ε α}

theorem exists_of_isOk (h : x.isOk = true) : ∃ a, x = .ok a := by
  cases x with
  | error e => cases h
  | ok a => exact ⟨a, rfl⟩

theorem exists_of_any {test : α → Bool} (h : x.toOption.any test = true) :
    ∃ a, x = .ok a ∧ test a = true := by
  cases x with
  | error e => cases h
  | ok a => exact ⟨a, rfl, h⟩

end

namespace Mustache

variable {text : List Char} {ts : List Token} {written : Program Statement}

def Token.onLine (symbol : Symbol) (start stop : Nat) (strip : Strip := {}) : Token :=
  { symbol, strip, loc := ⟨⟨1, start⟩, ⟨1, stop⟩⟩ }

theorem parseWritten_of_tokens (hscan : scan text = .ok ts)
    (hwritten : Program.ofTokens ts = .ok written) : parseWritten text = .ok written :=
  bind_eq_ok.mpr ⟨ts, hscan, hwritten⟩

theorem parse_of_tokens {program : Program Statement} (keepLines : Bool)
    (hscan : scan text = .ok ts)
    (hprogram : (Program.ofTokens ts).map (·.control keepLines) = .ok program) :
    parse text keepLines = .ok program := by
  obtain ⟨written, hwritten, rfl⟩ := map_eq_ok.mp hprogram
  exact bind_eq_ok.mpr ⟨written, parseWritten_of_tokens hscan hwritten, rfl⟩

end Mustache

theorem preprocess_of_parse {text : List Char} {program : Mustache.Program Mustache.Statement}
    (options : Options)
    (h : Mustache.parse text options.keepLines = .ok program) :
    preprocess text options
      = Tree.assemble ⟨text, options.moduleName⟩ options.mode options.locals program := by
  simp only [preprocess, h]

end HtmlTemplate
