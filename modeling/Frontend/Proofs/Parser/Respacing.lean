import Frontend.Proofs.Parser.Bare
import Frontend.Tree.Render
import Mathlib.Data.List.Basic

/-!
# White space has no influence on parsing

The tokens of a text can be written again with other white space before, between and after them. As
long as no two of them touch, the new text has the same tokens (`laid_weave`), so its statements and
diagnostics are those of the old one at other places, and its program is rendered in the same way.
-/

set_option autoImplicit false

namespace Frontend

/-! ## Rendering without places -/

theorem Expr.render_bare (e : Expr) : e.bare.render = e.render := by
  induction e with
  | identifier node => rfl
  | integer token value span => rfl
  | unary token operator operand span ih => rw [bare, render, render, ih]
  | binary token left operator right span ihl ihr => rw [bare, render, render, ihl, ihr]

theorem Statement.render_bare (s : Statement) : s.bare.render = s.render := by
  have value (v : Option Expr) : renderValue (v.map Expr.bare) = renderValue v := by
    cases v with
    | none => rfl
    | some e => exact e.render_bare
  cases s with
  | binding token name v span => simp only [bare, render, value]
  | giving token v span => simp only [bare, render, value]
  | expression token e span => exact e.render_bare

theorem Program.render_eq_of_bare {p q : Program}
    (h : p.statements.map Statement.bare = q.statements.map Statement.bare) :
    p.render = q.render := by
  have rendered (r : Program) :
      r.statements.map Statement.render = (r.statements.map Statement.bare).map
        Statement.render := by
    rw [List.map_map]
    exact List.map_congr_left fun s _ => s.render_bare.symm
  rw [render, render, rendered p, rendered q, h]

/-! ## Texts with the same tokens -/

/-- What is parsed from two texts with the same tokens is the same up to spans. -/
theorem parse_bare_eq (limit : UInt64) {text text' : List Char} {ls ls' : List Lexeme}
    {eof eof' : Lexeme} (laid : Laid .start text ls eof) (laid' : Laid .start text' ls' eof')
    (same : ls.map (·.token) = ls'.map (·.token)) : ∃ p ds q es,
      parse limit text = .ok (p, ds) ∧ parse limit text' = .ok (q, es) ∧
      p.statements.map Statement.bare = q.statements.map Statement.bare ∧
      ds.map Diagnostic.bare = es.map Diagnostic.bare := by
  have ending : eof.token = eof'.token := by
    obtain ⟨place, -, rfl⟩ := laid.advanceAll
    obtain ⟨place', -, rfl⟩ := laid'.advanceAll
    rfl
  have items : (Parser.items limit eof ls).map Parser.Item.bare =
      (Parser.items limit eof' ls').map Parser.Item.bare := Parser.items_bare_eq same ending
  refine ⟨_, _, _, _, parse_eq_ok_iff.mpr ⟨ls, eof, laid, rfl, rfl⟩,
    parse_eq_ok_iff.mpr ⟨ls', eof', laid', rfl, rfl⟩, ?_, ?_⟩
  · rw [← Parser.statements_bare, ← Parser.statements_bare, items]
  · rw [← Parser.diagnostics_bare, ← Parser.diagnostics_bare, items]

/-! ## Other white space -/

/-- The tokens of a text, written again with a gap before each of them and one at the end, are read
back if no two of them touch. The program is the same then, up to spans, and so are its rendering
and the diagnostics. If the new text is too long to have positions, there is nothing to compare. -/
theorem parse_respaced (limit : UInt64) {text : List Char} {all : List Lexeme}
    (tokenized : tokenize text = .ok all) {tokens : List Token}
    (shown : tokens = (all.filter (·.kind ≠ .eof)).map (·.token)) (gaps : List (List Char))
    (last : List Char) (count : gaps.length = tokens.length) (blank : ∀ gap ∈ gaps, Blank gap)
    (blankLast : Blank last) (apart : ∀ gap ∈ gaps.tail, gap ≠ []) :
    (∀ place, Position.start.advanceAll (weave (gaps.zip tokens) last) = .ok place →
      ∃ again p ds q es, tokenize (weave (gaps.zip tokens) last) = .ok again ∧
        again.map (·.token) = all.map (·.token) ∧ parse limit text = .ok (p, ds) ∧
        parse limit (weave (gaps.zip tokens) last) = .ok (q, es) ∧
        q.statements.map Statement.bare = p.statements.map Statement.bare ∧ q.render = p.render ∧
        es.map Diagnostic.bare = ds.map Diagnostic.bare) ∧
    (∀ fault, Position.start.advanceAll (weave (gaps.zip tokens) last) = .error fault →
      parse limit (weave (gaps.zip tokens) last) = .error fault) := by
  refine ⟨fun place there => ?_, fun fault missing => parse_eq_error missing⟩
  obtain ⟨ls, eof, laid, rfl⟩ := tokenize_eq_ok_iff.mp tokenized
  rw [laid.filter_eof] at shown
  subst shown
  -- the parts that the new text is woven from are gaps with the tokens of the old one
  have gap_of_mem : ∀ part ∈ gaps.zip (ls.map (·.token)), part.1 ∈ gaps := fun part h =>
    (List.of_mem_zip h).1
  have token_of_mem : ∀ part ∈ gaps.zip (ls.map (·.token)), Spelled part.2 := by
    intro part h
    obtain ⟨l, hl, htoken⟩ := List.mem_map.mp (List.of_mem_zip h).2
    rw [← htoken]
    exact laid.spelled l hl
  have gap_of_mem_tail : ∀ part ∈ (gaps.zip (ls.map (·.token))).tail, part.1 ≠ [] := by
    intro part h
    rw [List.tail_zip] at h
    exact apart part.1 (List.of_mem_zip h).1
  obtain ⟨ls', laid', htokens⟩ := laid_weave (gaps.zip (ls.map (·.token))) last
    (fun part h => blank part.1 (gap_of_mem part h)) token_of_mem gap_of_mem_tail blankLast there
  rw [List.map_snd_zip (Nat.le_of_eq count.symm)] at htokens
  obtain ⟨q, es, p, ds, parsed', parsed, statements, diagnostics⟩ :=
    parse_bare_eq limit laid' laid htokens
  refine ⟨ls' ++ [.eofAt place], p, ds, q, es, tokenize_eq_ok_iff.mpr ⟨ls', _, laid', rfl⟩, ?_,
    parsed, parsed', statements, Program.render_eq_of_bare statements, diagnostics⟩
  obtain ⟨place', -, rfl⟩ := laid.advanceAll
  rw [List.map_append, List.map_append, htokens]
  rfl

/-- A text with a rejected statement, and the same with wide spaces and newlines. -/
theorem parse_respaced_wide :
    ∃ all, tokenize "a+1;-)".toList = .ok all ∧
      ∃ again p ds q es, tokenize "a \n+\t1 ; -\u3000)\r".toList = .ok again ∧
        again.map (·.token) = all.map (·.token) ∧ parse 256 "a+1;-)".toList = .ok (p, ds) ∧
        parse 256 "a \n+\t1 ; -\u3000)\r".toList = .ok (q, es) ∧
        q.statements.map Statement.bare = p.statements.map Statement.bare ∧ q.render = p.render ∧
        es.map Diagnostic.bare = ds.map Diagnostic.bare := by
  have tokenized : tokenize "a+1;-)".toList = .ok [⟨⟨.ident, "a"⟩, ⟨⟨0, 1, 1⟩, ⟨1, 1, 2⟩⟩⟩,
      ⟨⟨.plus, "+"⟩, ⟨⟨1, 1, 2⟩, ⟨2, 1, 3⟩⟩⟩, ⟨⟨.int, "1"⟩, ⟨⟨2, 1, 3⟩, ⟨3, 1, 4⟩⟩⟩,
      ⟨⟨.semicolon, ";"⟩, ⟨⟨3, 1, 4⟩, ⟨4, 1, 5⟩⟩⟩, ⟨⟨.minus, "-"⟩, ⟨⟨4, 1, 5⟩, ⟨5, 1, 6⟩⟩⟩,
      ⟨⟨.rparen, ")"⟩, ⟨⟨5, 1, 6⟩, ⟨6, 1, 7⟩⟩⟩, .eofAt ⟨6, 1, 7⟩] := by decide +kernel
  have again :=
    (parse_respaced 256 tokenized rfl [[], [' ', '\n'], ['\t'], [' '], [' '], ['\u3000']] ['\r']
    rfl (by decide) (by decide) (by decide)).1 ⟨15, 2, 13⟩ rfl
  exact ⟨_, tokenized, again⟩

end Frontend
