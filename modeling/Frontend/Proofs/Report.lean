import Frontend.Report
import Frontend.Proofs.Capacity
import Frontend.Proofs.Excerpt
import Frontend.Proofs.Timeline
import Frontend.Proofs.Token.Decomposition

/-!
# Reports on texts of admitted size

To process a text is to parse its lexemes, and it has a report if the text has positions
(`exists_process`). A text that is no larger than admitted limits allow always has them. Nothing
fails on the way to its report, and all the slices are possible that its tokens and the lines under
its diagnostics are made of.
-/

set_option autoImplicit false

namespace Frontend

/-! ## Tokens as slices -/

theorem Laid.slice {text : List Char} {ls : List Lexeme} {eof : Lexeme}
    (h : Laid .start text ls eof) :
    ∀ l ∈ ls ++ [eof], l.span.slice text = .ok l.literal.toList := by
  intro l hl
  rcases List.mem_append.mp hl with hl | hl
  · have pieces : Decomposes text 0 (ls.map Lexeme.piece) := h.decomposes [] rfl
    exact Span.slice_of_sliceBytes (pieces.literal l.piece (List.mem_map_of_mem hl))
  · obtain ⟨place, there, rfl⟩ := h.advanceAll
    cases List.mem_singleton.mp hl
    have covered : Span.slice ⟨place, place⟩ (text ++ ([] ++ [])) = .ok [] :=
      Span.slice_of_advanceAll there rfl []
    rw [List.append_nil, List.append_nil] at covered
    exact covered

/-! ## Reports -/

/-- The diagnostics as text, with each line cut out of the source. -/
def Report.cutRender (r : Report) : Except Fault String :=
  (r.diagnostics.mapM fun d => Excerpt.cutBlock r.source d.span d.message).map
    (String.intercalate "\n")

theorem Report.cutRender_eq_render (r : Report) : r.cutRender = .ok r.render := by
  simp only [cutRender, Excerpt.cutBlock_eq_render]
  change Except.map _ (r.diagnostics.mapM fun d => pure _) = _
  rw [List.mapM_pure]
  unfold render isClean
  cases r.diagnostics <;> rfl

theorem exists_process (limits : Limits) (preferences : Preferences) (duration : String)
    {text : List Char} {ls : List Lexeme} {eof : Lexeme} (h : Laid .start text ls eof) :
    ∃ report events, process limits preferences duration text = .ok (report, events) ∧
      report.source = text ∧
      report.program = Parser.programOf (Parser.items limits.maxParseDepth eof ls) ∧
      report.diagnostics = Parser.diagnosticsOf (Parser.items limits.maxParseDepth eof ls) := by
  obtain ⟨front, processed, -, -⟩ := exists_process_eq limits preferences duration h
  exact ⟨_, _, processed, rfl, rfl, rfl⟩

/-- Under limits that a build admits, a text that is not too large is processed without a fault,
whatever is in it. Each of its tokens is the slice at its own span, and the lines under its
diagnostics are slices as well. -/
theorem process_admitted {limits : Limits} {profile : String}
    (admitted : limits.problem? profile = none) (preferences : Preferences) (duration : String)
    {text : List Char} (size : Text.byteSize text ≤ limits.maxSourceSize.toNat) :
    ∃ place tokens report events, Position.start.advanceAll text = .ok place ∧
      tokenize text = .ok tokens ∧ (∀ l ∈ tokens, l.span.slice text = .ok l.literal.toList) ∧
      process limits preferences duration text = .ok (report, events) ∧
      parse limits.maxParseDepth text = .ok (report.program, report.diagnostics) ∧
      report.source = text ∧ report.cutRender = .ok report.render := by
  have most : Position.start.offset.toNat + Text.byteSize text ≤ Position.capacity := by
    rw [show Position.start.offset.toNat = 0 from rfl, Nat.zero_add]
    exact Nat.le_trans size (Limits.maxSourceSize_le admitted)
  obtain ⟨place, there⟩ := Position.exists_advanceAll Position.bound_start most
  obtain ⟨ls, laid⟩ := exists_laid there
  obtain ⟨report, events, processed, source, hprogram, hdiagnostics⟩ :=
    exists_process limits preferences duration laid
  refine ⟨place, _, report, events, there, tokenize_eq_ok_iff.mpr ⟨ls, _, laid, rfl⟩,
    laid.slice, processed, ?_, source, report.cutRender_eq_render⟩
  exact parse_eq_ok_iff.mpr ⟨ls, _, laid, hprogram, hdiagnostics⟩

theorem Text.byteSize_replicate (n : Nat) (c : Char) :
    Text.byteSize (List.replicate n c) = n * c.utf8Size := by
  induction n with
  | zero => simp
  | succ n ih =>
    rw [List.replicate_succ, byteSize_cons, ih, Nat.succ_mul]
    omega

/-- The largest text of all with the widest characters. -/
theorem process_admitted_tabs :
    (⟨1000000000, 64, 256, 10000, 4096⟩ : Limits).problem? "development" = none ∧
      Text.byteSize (List.replicate 1000000000 '\t') ≤ 1000000000 ∧
      ∃ report events, process ⟨1000000000, 64, 256, 10000, 4096⟩ (.ofEnvironment {}) "0.00"
        (List.replicate 1000000000 '\t') = .ok (report, events) := by
  have admitted : (⟨1000000000, 64, 256, 10000, 4096⟩ : Limits).problem? "development" =
      none := by decide
  have size : Text.byteSize (List.replicate 1000000000 '\t') ≤ 1000000000 := by
    rw [Text.byteSize_replicate]
    decide
  obtain ⟨place, tokens, report, events, -, -, -, processed, -⟩ :=
    process_admitted admitted (.ofEnvironment {}) "0.00" size
  exact ⟨admitted, size, report, events, processed⟩

end Frontend
