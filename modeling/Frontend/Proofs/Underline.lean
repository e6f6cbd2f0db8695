import Frontend.Proofs.Excerpt
import Frontend.Proofs.Parser.Rejection
import Frontend.Proofs.Report
import Frontend.Proofs.Token.Place

/-!
# What the marks of an excerpt stand under

The line that a position names is the line around it: what stands before the position back to a
newline, and what stands after it up to the next one (`getElem?_pieces`). Under the line of a token
the marks cover the token, tabs being filled up (`Laid.pointsAt`), and this is so for every
diagnostic of a report.

A span that goes on to another line is marked by the number of characters on its first line. If
these take more columns than there are characters, the marks end before the line does.
-/

set_option autoImplicit false

namespace Frontend

namespace Excerpt

open Text (byteSize lastLine firstLine)

/-! ## The line around a position -/

theorem getElem?_zero_pieces (text : List Char) : (pieces text)[0]? = some (firstLine text) := by
  induction text using lines_induction with
  | last line hline =>
    rw [pieces_last hline, Text.firstLine_of_not_mem hline]
    rfl
  | more line rest hline ih =>
    rw [pieces_line hline, Text.firstLine_line hline]
    rfl

/-- The newlines before a place are the number of its line, which is the line around it. -/
theorem getElem?_pieces (before after : List Char) :
    (pieces (before ++ after))[before.count '\n']? = some (lastLine before ++ firstLine after) := by
  induction before using lines_induction with
  | last line hline =>
    rw [List.count_eq_zero_of_not_mem hline, getElem?_zero_pieces, Text.lastLine_of_not_mem hline,
      Text.firstLine_append_of_not_mem hline]
  | more line rest hline ih =>
    rw [List.append_assoc, List.cons_append, pieces_line hline, List.count_append,
      List.count_eq_zero_of_not_mem hline, List.count_cons_self, Nat.zero_add,
      List.getElem?_cons_succ, ih,
      Text.lastLine_append_newline]

theorem line?_pieces {before : List Char} {p : Position} (h : Position.At before p)
    (after : List Char) :
    line? (pieces (before ++ after)) p.line.toNat =
      some (trimReturns (lastLine before ++ firstLine after)) := by
  rw [h.line, Nat.add_comm, line?, getElem?_pieces]
  rfl

theorem trimReturns_append {left : List Char} (h : ∀ c, left.getLast? = some c → c ≠ '\r')
    (right : List Char) :
    trimReturns (left ++ right) = left ++ trimReturns right := by
  change List.rdropWhile _ _ = left ++ List.rdropWhile _ _
  induction right using List.reverseRecOn with
  | nil =>
    rw [List.append_nil, List.rdropWhile_nil, List.append_nil, List.rdropWhile_eq_self_iff]
    intro nonempty
    have last := h _ (List.getLast?_eq_getLast_of_ne_nil nonempty)
    simpa using last
  | append_singleton right c ih =>
    rw [← List.append_assoc, List.rdropWhile_concat, List.rdropWhile_concat, ih]
    split <;> simp

theorem newline_not_mem_line (before after : List Char) :
    '\n' ∉ trimReturns (lastLine before ++ firstLine after) := by
  intro h
  have inside := (List.rdropWhile_prefix _ _).subset h
  rcases List.mem_append.mp inside with inside | inside
  · exact absurd (List.mem_rtakeWhile_imp inside) (by decide)
  · exact absurd (List.mem_takeWhile_imp inside) (by decide)

/-! ## Blocks line by line -/

/-- A block in full: the message, the place, and between margins of one width a line of the text and
`marks` marks under it, `indent` columns from its start. -/
def picture (message : String) (p : Position) (line : List Char) (indent marks : Nat) : String :=
  let number := toString p.line.toNat
  let margin := String.ofList (List.replicate number.length ' ')
  let row := String.ofList (List.replicate indent ' ' ++ List.replicate marks '^')
  String.join (["error: " ++ message, "  --> " ++ p.render, margin ++ " |",
    number ++ " | " ++ String.ofList line, margin ++ " | " ++ row].map (· ++ "\n"))

theorem render_eq_picture {lines : List (List Char)} {span : Span} {line : List Char}
    (found : line? lines span.start.line.toNat = some line) (message : String) :
    render lines span message =
      picture message span.start line (span.start.column.toNat - 1) (max (width line span) 1) := by
  have bar : " |\n" = " |" ++ "\n" := rfl
  unfold render
  rw [found]
  unfold block under picture
  simp only [bar, List.map_cons, List.map_nil, String.join, List.foldl_cons, List.foldl_nil,
    String.ofList_append]
  generalize toString span.start.line.toNat = number
  generalize span.start.render = place
  simp only [String.append_assoc, String.empty_append]

theorem picture_marks_inj {message : String} {p : Position} {line : List Char} {indent m n : Nat}
    (h : picture message p line indent m = picture message p line indent n) : m = n := by
  have size := congrArg String.length h
  simp only [picture, List.map_cons, List.map_nil, String.join, List.foldl_cons, List.foldl_nil,
    String.length_append, String.length_ofList, List.length_append, List.length_replicate] at size
  omega

/-! ## Tokens -/

/-- A block points at a lexeme of a text. It shows the line that holds the lexeme, without the
carriage returns at its end, and the marks stand under the literal where the tabs of this line are
filled up. The end of the text, which has no literal, has one mark. -/
def PointsAt (text : List Char) (l : Lexeme) (message block : String) : Prop :=
  ∃ before after line marks, text = before ++ (l.literal.toList ++ after) ∧
    byteSize before = l.span.start.offset.toNat ∧
    line = trimReturns (lastLine before ++ (l.literal.toList ++ firstLine after)) ∧
    line? (pieces text) l.span.start.line.toNat = some line ∧
    block = picture message l.span.start line (l.span.start.column.toNat - 1) marks ∧
    (l.kind = .eof → marks = 1) ∧
    (l.kind ≠ .eof → marks = l.literal.toList.length ∧
      ((Text.expand line).drop (l.span.start.column.toNat - 1)).take marks = l.literal.toList)

/-- A part of a line without newlines and tabs takes as many columns as it has characters. -/
theorem width_of_at {before part : List Char} {start stop : Position}
    (first : Position.At before start) (last : Position.At (before ++ part) stop)
    (newline : '\n' ∉ part) (tab : '\t' ∉ part) (line : List Char) :
    width line ⟨start, stop⟩ = part.length := by
  have same : start.line = stop.line := by
    rw [← UInt32.toNat_inj, first.line, last.line, List.count_append,
      List.count_eq_zero_of_not_mem newline]
    rfl
  rw [width, if_pos same, first.column, last.column, Text.lastLine_append_of_not_mem before newline,
    Text.width_append, Text.widthFrom_of_not_mem _ tab]
  omega

theorem pointsAt_of_split {before after : List Char} {l : Lexeme}
    (first : Position.At before l.span.start)
    (last : Position.At (before ++ l.literal.toList) l.span.stop)
    (shown : ∀ c ∈ l.literal.toList, Text.isBlank c = false)
    (ends : l.kind = .eof ↔ l.literal.toList = []) (message : String) :
    PointsAt (before ++ (l.literal.toList ++ after)) l message
      (render (pieces (before ++ (l.literal.toList ++ after))) l.span message) := by
  have newline : '\n' ∉ l.literal.toList := fun h => absurd (shown _ h) (by decide)
  have tab : '\t' ∉ l.literal.toList := fun h => absurd (shown _ h) (by decide)
  have found := line?_pieces first (l.literal.toList ++ after)
  rw [Text.firstLine_append_of_not_mem newline] at found
  have marks := width_of_at first last newline tab
  refine ⟨before, after, _, _, rfl, first.offset.symm, rfl, found,
    render_eq_picture found message, ?_, ?_⟩
  · intro eof
    rw [marks, ends.mp eof]
    rfl
  · intro token
    have nonempty : l.literal.toList ≠ [] := fun h => token (ends.mpr h)
    have long := List.length_pos_of_ne_nil nonempty
    rw [marks, Nat.max_eq_left long]
    refine ⟨rfl, ?_⟩
    -- the literal does not end in a carriage return, so it is in the part of the line that is shown
    have kept : ∀ c, (lastLine before ++ l.literal.toList).getLast? = some c → c ≠ '\r' := by
      rintro c hc rfl
      rw [List.getLast?_append_of_ne_nil _ nonempty] at hc
      exact absurd (shown _ (List.mem_of_getLast? hc)) (by decide)
    have column : l.span.start.column.toNat - 1 = Text.width (lastLine before) := by
      rw [first.column]
      omega
    rw [← List.append_assoc, trimReturns_append kept, List.append_assoc, column]
    exact Text.take_drop_expand _ tab _

/-! ## Spans that go on -/

/-- A span that goes on to another line is marked from its start by the number of characters that
its line has from the column of the start on. The end of the line is column `r.column`, so there are
never too many marks, and they reach the end exactly if the line is as wide as it is long or has at
most one more column. -/
theorem render_onward {before after tail : List Char} {p q r : Position}
    (there : Position.start.advanceAll before = .ok p) (onward : p.line ≠ q.line)
    (within : trimReturns (lastLine before ++ firstLine after) = lastLine before ++ tail)
    (reached : p.advanceAll tail = .ok r) (message : String) :
    ∃ marks, render (pieces (before ++ after)) ⟨p, q⟩ message =
        picture message p (lastLine before ++ tail) (p.column.toNat - 1) marks ∧
      marks = max 1 ((lastLine before ++ tail).length + 1 - p.column.toNat) ∧
      marks ≤ max 1 (r.column.toNat - p.column.toNat) ∧
      (marks = max 1 (r.column.toNat - p.column.toNat) ↔
        Text.width (lastLine before ++ tail) = (lastLine before ++ tail).length ∨
          r.column.toNat ≤ p.column.toNat + 1) := by
  have first := Position.at_of_advanceAll there
  have found := line?_pieces first after
  rw [within] at found
  have newline : '\n' ∉ tail :=
    fun h => newline_not_mem_line before after (within ▸ List.mem_append_right _ h)
  have column : r.column.toNat = 1 + Text.width (lastLine before ++ tail) := by
    rw [(first.advanceAll reached).column, Text.lastLine_append_of_not_mem before newline]
  have long := Text.length_le_width (lastLine before ++ tail)
  have marks : max (width (lastLine before ++ tail) ⟨p, q⟩) 1 =
      max 1 ((lastLine before ++ tail).length + 1 - p.column.toNat) := by
    rw [width, if_neg onward, Nat.max_comm]
  have shown : render (pieces (before ++ after)) ⟨p, q⟩ message = _ :=
    render_eq_picture found message
  rw [marks] at shown
  exact ⟨_, shown, rfl, by omega, by omega⟩

/-- Without tabs the marks reach the end of the line, before its carriage returns. -/
theorem render_onward_returns :
    Position.start.advanceAll "é ".toList = .ok ⟨3, 1, 3⟩ ∧
      Position.start.advanceAll "é ab\r\r\nc".toList = .ok ⟨9, 2, 2⟩ ∧
      render (pieces "é ab\r\r\nc".toList) ⟨⟨3, 1, 3⟩, ⟨9, 2, 2⟩⟩ "m" =
        picture "m" ⟨3, 1, 3⟩ "é ab".toList 2 2 := by
  have there : Position.start.advanceAll "é ".toList = .ok ⟨3, 1, 3⟩ := rfl
  have within : trimReturns (lastLine "é ".toList ++ firstLine "ab\r\r\nc".toList) =
      lastLine "é ".toList ++ "ab".toList := by decide
  have reached : Position.advanceAll ⟨3, 1, 3⟩ "ab".toList = .ok ⟨5, 1, 5⟩ := rfl
  have onward : (⟨3, 1, 3⟩ : Position).line ≠ (⟨9, 2, 2⟩ : Position).line := by decide
  obtain ⟨marks, shown, -, -, full⟩ := render_onward there onward within reached "m"
  have two : marks = max 1 (5 - 3) := full.mpr (.inl (by decide))
  rw [two] at shown
  exact ⟨there, rfl, shown⟩

/-- After a tab they do not: of the two columns from the start to the end of the line one is
marked. -/
theorem render_onward_short :
    Position.start.advanceAll "\t".toList = .ok ⟨1, 1, 5⟩ ∧
      Position.start.advanceAll "\tab\nc".toList = .ok ⟨5, 2, 2⟩ ∧
      trimReturns (lastLine "\t".toList ++ firstLine "ab\nc".toList) = "\tab".toList ∧
      Position.advanceAll ⟨1, 1, 5⟩ "ab".toList = .ok ⟨3, 1, 7⟩ ∧
      render (pieces "\tab\nc".toList) ⟨⟨1, 1, 5⟩, ⟨5, 2, 2⟩⟩ "m" =
        picture "m" ⟨1, 1, 5⟩ "\tab".toList 4 1 ∧
      render (pieces "\tab\nc".toList) ⟨⟨1, 1, 5⟩, ⟨5, 2, 2⟩⟩ "m" ≠
        picture "m" ⟨1, 1, 5⟩ "\tab".toList 4 (max 1 (7 - 5)) := by
  have found : line? (pieces "\tab\nc".toList) 1 = some "\tab".toList := by decide
  have shown : render (pieces "\tab\nc".toList) ⟨⟨1, 1, 5⟩, ⟨5, 2, 2⟩⟩ "m" =
      picture "m" ⟨1, 1, 5⟩ "\tab".toList 4 1 := render_eq_picture found "m"
  refine ⟨rfl, rfl, by decide, rfl, shown, fun other => ?_⟩
  exact absurd (picture_marks_inj (shown.symm.trans other)) (by decide)

end Excerpt

theorem Laid.pointsAt {text : List Char} {ls : List Lexeme} {eof : Lexeme}
    (h : Laid .start text ls eof) {l : Lexeme} (hl : l ∈ ls ++ [eof]) (message : String) :
    Excerpt.PointsAt text l message (Excerpt.render (Excerpt.pieces text) l.span message) := by
  obtain ⟨before, after, rfl, first, last⟩ := h.exists_split l hl
  have there := Position.at_of_advanceAll first
  apply Excerpt.pointsAt_of_split there (there.advanceAll last)
  all_goals rcases List.mem_append.mp hl with token | ended
  · exact (h.spelled l token).shown
  · obtain ⟨place, -, rfl⟩ := h.advanceAll
    rw [List.mem_singleton.mp ended]
    nofun
  · have spelled := h.spelled l token
    exact iff_of_false spelled.kind_ne_eof spelled.ne_nil
  · obtain ⟨place, -, rfl⟩ := h.advanceAll
    rw [List.mem_singleton.mp ended]
    exact iff_of_true rfl rfl

/-! ## Reports -/

/-- The report on a text has one block for each diagnostic, in their order, and each block points at
the token that the diagnostic is about. A text without positions has no report. -/
theorem process_render_points (limits : Limits) (preferences : Preferences) (duration : String)
    (text : List Char) :
    (∀ place, Position.start.advanceAll text = .ok place →
      ∃ tokens report events, ∃ block : Diagnostic → String,
      tokenize text = .ok tokens ∧ process limits preferences duration text = .ok (report, events) ∧
      parse limits.maxParseDepth text = .ok (report.program, report.diagnostics) ∧
      report.render = String.intercalate "\n" (report.diagnostics.map block) ∧
      ∀ d ∈ report.diagnostics, ∃ before l after, tokens = before ++ l :: after ∧ d.span = l.span ∧
        d.Describes limits.maxParseDepth before l ∧ Excerpt.PointsAt text l d.message (block d)) ∧
    (∀ fault, Position.start.advanceAll text = .error fault →
      process limits preferences duration text = .error fault) := by
  refine ⟨fun place there => ?_, fun fault missing =>
    process_eq_error limits preferences duration missing⟩
  obtain ⟨ls, laid⟩ := exists_laid there
  obtain ⟨report, events, processed, source, program, diagnostics⟩ :=
    exists_process limits preferences duration laid
  refine ⟨_, report, events, fun d => Excerpt.render (Excerpt.pieces text) d.span d.message,
    tokenize_eq_ok_iff.mpr ⟨ls, _, laid, rfl⟩, processed,
    parse_eq_ok_iff.mpr ⟨ls, _, laid, program, diagnostics⟩,
    ?_, fun d hd => ?_⟩
  · rw [← source]
    unfold Report.render Report.isClean
    cases report.diagnostics <;> rfl
  · rw [diagnostics] at hd
    obtain ⟨rest, points⟩ := Parser.exists_points_of_mem laid.eof_kind hd
    obtain ⟨before, l, after, hall, span, describes⟩ := points.exists_mem
    have mem : l ∈ ls ++ [.eofAt place] := by
      rw [hall]
      exact List.mem_append_right before List.mem_cons_self
    have pointed := laid.pointsAt mem d.message
    rw [← span] at pointed
    exact ⟨before, l, after, hall, span, describes, pointed⟩

/-- A character that starts no token, after a tab on the second line, and the end after a carriage
return. -/
theorem process_render_points_tab :
    Position.start.advanceAll "x;\n\té\r\n-\r".toList = .ok ⟨10, 3, 3⟩ ∧
    ∃ tokens report events, ∃ block : Diagnostic → String,
      tokenize "x;\n\té\r\n-\r".toList = .ok tokens ∧
      process Build.development.limits (.ofEnvironment {}) "0.00" "x;\n\té\r\n-\r".toList =
        .ok (report, events) ∧
      report.render = String.intercalate "\n" [block (.noOperand .illegal ⟨⟨4, 2, 5⟩, ⟨6, 2, 6⟩⟩),
        block (.noOperand .eof ⟨⟨10, 3, 3⟩, ⟨10, 3, 3⟩⟩)] ∧
      ∃ l ∈ tokens, l.kind = .illegal ∧ l.span = ⟨⟨4, 2, 5⟩, ⟨6, 2, 6⟩⟩ ∧
        Excerpt.PointsAt "x;\n\té\r\n-\r".toList l "no prefix parse function for ILLEGAL"
          (block (.noOperand .illegal ⟨⟨4, 2, 5⟩, ⟨6, 2, 6⟩⟩)) := by
  have there : Position.start.advanceAll "x;\n\té\r\n-\r".toList = .ok ⟨10, 3, 3⟩ := rfl
  have known : parse Build.development.limits.maxParseDepth "x;\n\té\r\n-\r".toList =
      .ok (⟨[.expression ⟨.ident, "x"⟩ (.identifier ⟨⟨.ident, "x"⟩, "x", ⟨⟨0, 1, 1⟩, ⟨1, 1, 2⟩⟩⟩)
          ⟨⟨0, 1, 1⟩, ⟨1, 1, 2⟩⟩]⟩,
        [.noOperand .illegal ⟨⟨4, 2, 5⟩, ⟨6, 2, 6⟩⟩,
          .noOperand .eof ⟨⟨10, 3, 3⟩, ⟨10, 3, 3⟩⟩]) := by decide +kernel
  obtain ⟨tokens, report, events, block, tokenized, processed, parsed, rendered, all⟩ :=
    (process_render_points Build.development.limits (.ofEnvironment {}) "0.00"
      "x;\n\té\r\n-\r".toList).1 _ there
  rw [known] at parsed
  obtain ⟨-, diagnostics⟩ := Prod.mk.inj (Except.ok.inj parsed)
  rw [← diagnostics] at rendered all
  obtain ⟨before, l, after, rfl, span, describes, points⟩ := all _ List.mem_cons_self
  exact ⟨there, _, report, events, block, tokenized, processed, rendered, l, by simp,
    describes.1.symm, span.symm, points⟩

end Frontend
