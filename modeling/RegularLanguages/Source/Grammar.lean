import RegularLanguages.Lexer.Basic
import RegularLanguages.Automaton.Description

/-!
# The grammars of descriptions

Which lists of tokens are descriptions, and of what, as relations beside the readers.

* `IsEnd` -- the word `end`, with or without a semicolon;
* `AutomatonGrammar`, `LexerGrammar` -- the descriptions of automata and of lexers;
* `Viable` -- a list of tokens with which some description begins.
-/

namespace RegularLanguages.Source

/-- The end of a section. -/
inductive IsEnd : List Token → Prop where
  | plain : IsEnd [.word "end"]
  | semicolon : IsEnd [.word "end", .semicolon]

/-- The tokens of one transition. -/
def transitionTokens (t : StateName × List Symbol × StateName) : List Token :=
  .word t.1 :: (t.2.1.map Token.symbol ++ [.arrow, .word t.2.2])

/-- The tokens of a description of an automaton. In lists of names the word `end` cannot be a
name; a transition reads at least one symbol. -/
inductive AutomatonGrammar : List Token → Automaton.Description → Prop where
  | intro {kind : String} {d : Automaton.Description} {e₁ e₂ e₃ e₄ : List Token}
    (hkind : kind = "dfa" ∨ kind = "nfa")
    (hstates : "end" ∉ d.states) (haccepting : "end" ∉ d.accepting)
    (hsources : ∀ t ∈ d.transitions, t.1 ≠ "end" ∧ t.2.1 ≠ [])
    (h₁ : IsEnd e₁) (h₂ : IsEnd e₂) (h₃ : IsEnd e₃) (h₄ : IsEnd e₄) :
    AutomatonGrammar
      ([.word kind, .word "states"] ++ d.states.map Token.word ++ e₁ ++
        [.word "initial", .word d.start, .word "accept"] ++ d.accepting.map Token.word ++ e₂ ++
        [.word "transitions"] ++ d.transitions.flatMap transitionTokens ++ e₃ ++
        [.word "alphabet"] ++ d.alphabet.map Token.symbol ++ e₄) d

/-- The token that is a node of an expression. -/
def Token.ofRegexToken : Regex.Token → Token
  | .operator o => .operator o
  | .symbol c => .symbol c
  | .nil => .word "nil"
  | .empty => .word "empty"

/-- The tokens of one class. -/
inductive ClassGrammar : List Token → Lexer.ClassDescription → Prop where
  | intro {d : Lexer.ClassDescription} {e : List Token} (h : IsEnd e) :
    ClassGrammar
      ([.word "class", .word d.name, .word "is"] ++ d.tokens.map Token.ofRegexToken ++
        [.word d.relevance.name] ++ e) d

/-- The tokens of several classes. -/
inductive ClassesGrammar : List Token → List Lexer.ClassDescription → Prop where
  | nil : ClassesGrammar [] []
  | cons {ts us : List Token} {d : Lexer.ClassDescription} {ds : List Lexer.ClassDescription}
    (h : ClassGrammar ts d) (more : ClassesGrammar us ds) : ClassesGrammar (ts ++ us) (d :: ds)

/-- The tokens of a description of a lexer. -/
inductive LexerGrammar : List Token → Lexer.Description → Prop where
  | intro {d : Lexer.Description} {e₁ e₂ cs : List Token}
    (h₁ : IsEnd e₁) (hclasses : ClassesGrammar cs d.classes) (h₂ : IsEnd e₂) :
    LexerGrammar
      ([.word "language", .word d.name, .word "alphabet"] ++ d.alphabet.map Token.symbol ++ e₁ ++
        cs ++ e₂) d

/-- A list of tokens is viable for a grammar if some description begins with it. -/
def Viable {α : Type} (grammar : List Token → α → Prop) (ts : List Token) : Prop :=
  ∃ rest d, grammar (ts ++ rest) d

end RegularLanguages.Source
