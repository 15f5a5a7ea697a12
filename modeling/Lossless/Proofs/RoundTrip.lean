import Lossless.Proofs.Parsing

/-!
# From a text and back

A text that is a program is read, its tree is built under a bundled
strategy, and the tree is written and stripped again. None of these steps
fails on what the step before returned, and nothing is lost: the source that
is written is the text, and what is left without the extras is the tree that
was read (`round_trip`).
-/

namespace Lossless

open Cst Cst.Build

/-- Under a bundled strategy a program is built from its own tokens. -/
theorem exists_build_of_parse {text : String} {p : Program}
    (hp : Program.parse text = .ok p) {s : Schema} (hs : s.Sound)
    (hstrategy : s.strategy ∈ Strategy.bundled)
    (hgrammar : s.grammar = .functions) :
    ∃ tree, build s p.ast p.tokens = .ok tree := by
  obtain ⟨hfits, htype, htokens, hleaves⟩ := Program.parse_eq_ok hp
  have hdistinct : s.grammar.Distinct := hgrammar ▸
    Grammar.distinct_of_validate Grammar.validate_functions
  have hconforms : s.grammar.Conforms p.ast := hgrammar ▸ hfits
  have hcheck : s.grammar.check p.ast = .ok () :=
    Grammar.check_of_conforms (hgrammar ▸ htype) hconforms
  have hword : ∀ t ∈ p.tokens, t.token.word = t.text := fun t ht =>
    word_eq_text (htokens ▸ List.mem_map_of_mem ht)
  have hverdict : Leaf.verdict (streamEnd p.tokens) p.ast.words
      (p.tokens.filter (!·.isExtra)) = none := by
    rw [← hleaves]
    exact Leaf.verdict_allLeaves hword
  have hbuild := build_eq_verdict (hs.resolves hstrategy ⟨rfl, rfl⟩) hdistinct
    (tiles_of_tokenize htokens) hcheck
  have hlayout : p.ast.leaves s.layout = p.ast.words :=
    leaves_functions hs hstrategy hgrammar hconforms
  rw [hlayout, hverdict] at hbuild
  exact hbuild

/-- Whatever program a text is, and whichever bundled strategy the schema is
made of: the tree is built from the program's tokens, its source is the text,
and it strips to the program's own tree. -/
theorem round_trip {text : String} {p : Program}
    (hp : Program.parse text = .ok p) {strategy : Strategy}
    (hstrategy : strategy ∈ Strategy.bundled) :
    ∃ s tree, Schema.make .functions strategy = .ok s ∧
      build s p.ast p.tokens = .ok tree ∧
      tree.source s = .ok text ∧ tree.strip = .ok p.ast := by
  obtain ⟨s, hs⟩ := exists_make_functions hstrategy
  obtain ⟨hgrammar, hmade, hsound⟩ := Schema.make_eq_ok hs
  have hbundled : s.strategy ∈ Strategy.bundled := hmade ▸ hstrategy
  obtain ⟨tree, htree⟩ := exists_build_of_parse hp hsound hbundled hgrammar
  have hresolves : s.Resolves := hsound.resolves hbundled ⟨rfl, rfl⟩
  have hsource :=
    source_eq_join hresolves (Strategy.local_bundled hbundled) htree
  rw [join_of_tokenize (Program.parse_eq_ok hp).2.2.1] at hsource
  exact ⟨s, tree, hs, htree, hsource,
    strip_of_plain (plain_of_build hsound htree)⟩

/-- A program with comments, parentheses that are extras, a return and a call
without semicolons, and empty lists. -/
def sampleText : String :=
  "function f(a, b) \x7b return (a)(b)(1, /* c */ ((true))) \x7d\n;(f)() // d\n"

theorem round_trip_sample :
    ∃ p s tree, Program.parse sampleText = .ok p ∧
      Schema.make .functions .extendedLabels = .ok s ∧
      build s p.ast p.tokens = .ok tree ∧ tree.source s = .ok sampleText ∧
      tree.strip = .ok p.ast := by
  have h : (Program.parse sampleText).isOk = true := by decide +kernel
  obtain ⟨p, hp⟩ := Outcome.exists_of_isOk h
  have hstrategy : Strategy.extendedLabels ∈ Strategy.bundled :=
    .tail _ (.head _)
  obtain ⟨s, tree, h⟩ := round_trip hp hstrategy
  exact ⟨p, s, tree, hp, h⟩

end Lossless
