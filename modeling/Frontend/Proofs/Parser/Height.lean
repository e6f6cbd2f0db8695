import Frontend.Limits
import Frontend.Proofs.Parser.Locality
import Frontend.Proofs.Tree.Height

/-!
# Heights of parsed trees

What an accepted expression costs is within the nesting limit, but its height need not be: under a
limit of `n` levels an expression is up to `5 n - 26` high, and some text has one that is. So the
limit keeps functions that recur on a tree within a fixed multiple of it.
-/

set_option autoImplicit false

namespace Frontend

/-- A build admits nesting limits from 16 to 4096. -/
theorem Limits.maxParseDepth_bounds {limits : Limits} {profile : String}
    (admitted : limits.problem? profile = none) :
    16 ≤ limits.maxParseDepth.toNat ∧ limits.maxParseDepth.toNat ≤ 4096 := by
  have bounds := problem?_eq_none_iff.mp admitted
  exact ⟨UInt64.le_iff_toNat_le.mp bounds.le_depth, UInt64.le_iff_toNat_le.mp bounds.depth_le⟩

/-! ## Tall expressions in a text -/

theorem length_spaced_cons_le (t : Token) (ts : List Token) :
    (spaced (t :: ts)).length ≤ t.literal.toList.length + 1 + (spaced ts).length := by
  cases ts with
  | nil => simp [spaced]
  | cons next ts =>
    rw [spaced_cons_cons, List.length_append, List.length_cons]
    omega

theorem length_spaced_append_le (e : Expr) (ts : List Token) :
    (spaced (e.tokens ++ ts)).length ≤ e.width + (spaced ts).length := by
  induction e generalizing ts with
  | identifier node => exact length_spaced_cons_le node.token ts
  | integer token value span => exact length_spaced_cons_le token ts
  | unary token operator operand span ih =>
    have first := length_spaced_cons_le token (operand.tokens ++ ts)
    have others := ih ts
    rw [Expr.tokens, Expr.width, List.cons_append]
    omega
  | binary token left operator right span ihl ihr =>
    have first := ihl (token :: (right.tokens ++ ts))
    have sign := length_spaced_cons_le token (right.tokens ++ ts)
    have others := ihr ts
    rw [Expr.tokens, Expr.width, List.append_assoc, List.cons_append]
    omega

/-- An expression that fits is read back with its height. -/
theorem Expr.Tower.exists_parse {limit : UInt64} {e : Expr} (h : e.Tower .lowest limit.toNat)
    (low : e.height ≤ 100000) : ∃ token e' span,
      parse limit (spaced e.tokens) = .ok (⟨[.expression token e' span]⟩, []) ∧
      e'.height = e.height := by
  have short : (spaced e.tokens).length ≤ e.width := by
    simpa [spaced] using length_spaced_append_le e []
  have narrow := h.narrow
  obtain ⟨place, there⟩ : ∃ place, Position.start.advanceAll (spaced e.tokens) = .ok place := by
    apply Position.exists_advanceAll_plain (plain_spaced h.formed)
    · change 0 + _ < 18446744073709551616
      omega
    · change 1 + _ < 4294967296
      omega
  obtain ⟨ls, laid, htokens⟩ :=
    laid_spaced e.tokens_ne_nil (fun t ht => (h.formed.spelled t ht).1) there
  obtain ⟨e', reads, bare⟩ := exists_reads h.formed htokens
  have graded : e'.Graded := by
    rw [← Expr.graded_bare, bare, Expr.graded_bare]
    exact h.graded
  have fits : e'.cost ≤ limit.toNat := by
    rw [← Expr.cost_bare, bare, Expr.cost_bare]
    exact h.fits
  obtain ⟨token, span, hitems⟩ := Parser.items_of_fits reads graded fits (.eofAt place)
  refine ⟨token, e', span, parse_eq_ok_iff.mpr ⟨ls, _, laid, ?_, ?_⟩, ?_⟩
  · rw [hitems]
    rfl
  · rw [hitems]
    rfl
  · rw [← Expr.height_bare, bare, Expr.height_bare]

theorem spaced_negated (n : Nat) (ts : List Token) :
    spaced ((Expr.negated n).tokens ++ ts) =
      (List.replicate n ['!', ' ']).flatten ++ spaced (Expr.letter.tokens ++ ts) := by
  induction n with
  | zero => rfl
  | succ n ih =>
    obtain ⟨next, rest, hnext⟩ := List.exists_cons_of_ne_nil (Expr.negated n).tokens_ne_nil
    rw [List.replicate_succ, List.flatten_cons, List.append_assoc, ← ih, Expr.negated,
      Expr.tokens, hnext]
    exact spaced_cons_cons _ next (rest ++ ts)

/-! ## The height under a limit -/

/-- Under the limits of a build no expression in a program is higher than `5 n - 26`, where `n` is
the nesting limit, and there is a text with one that is as high as this. -/
theorem parse_height {limits : Limits} {profile : String}
    (admitted : limits.problem? profile = none) :
    (∀ text p ds, parse limits.maxParseDepth text = .ok (p, ds) → ∀ s ∈ p.statements, ∀ e ∈ s.parts,
      e.height ≤ 5 * limits.maxParseDepth.toNat - 26) ∧
    ∃ text p, parse limits.maxParseDepth text = .ok (p, []) ∧ ∃ s ∈ p.statements, ∃ e ∈ s.parts,
      e.height = 5 * limits.maxParseDepth.toNat - 26 := by
  obtain ⟨least, most⟩ := Limits.maxParseDepth_bounds admitted
  constructor
  · intro text p ds parsed s hs e he
    obtain ⟨ls, eof, laid, rfl, -⟩ := parse_eq_ok_iff.mp parsed
    obtain ⟨before, rest, after, rfl, accepts⟩ := Parser.accepts_of_mem hs
    obtain ⟨front, block, back, rfl, reads, graded, cheap⟩ := accepts.exists_part e he
    rw [← tallest_four (by omega)]
    exact Expr.height_le_tallest graded cheap reads.above_lowest.within
  · obtain ⟨n, hn⟩ := Nat.exists_eq_add_of_le' (show 8 ≤ limits.maxParseDepth.toNat by omega)
    have tower := Expr.tower_highest n
    have high := Expr.height_highest n
    rw [← hn] at tower
    obtain ⟨token, e, span, parsed, same⟩ := tower.exists_parse (by omega)
    exact ⟨_, _, parsed, _, List.mem_cons_self, e, e.mem_parts_self, by omega⟩

/-- The build for development has the nesting limit 256. -/
theorem parse_height_development :
    Build.development.limits.problem? Build.development.profile = none ∧
    (∀ text p ds, parse 256 text = .ok (p, ds) →
      ∀ s ∈ p.statements, ∀ e ∈ s.parts, e.height ≤ 1254) ∧
    ∃ text p, parse 256 text = .ok (p, []) ∧ ∃ s ∈ p.statements, ∃ e ∈ s.parts,
    e.height = 1254 := by
  have admitted : Build.development.limits.problem? Build.development.profile = none := by decide
  exact ⟨admitted, parse_height admitted⟩

/-- The levels of 255 unary operators are closed when the sum is reached, so under a limit of 256
there is an expression of height 257. -/
theorem parse_height_above_limit :
    ∃ p, parse Build.development.limits.maxParseDepth
        ((List.replicate 255 ['!', ' ']).flatten ++ "a + a".toList) = .ok (p, []) ∧
      ∃ s ∈ p.statements, ∃ e ∈ s.parts,
        Build.development.limits.maxParseDepth.toNat < e.height := by
  have tower : Expr.Tower .lowest 256 (Expr.linked .plus (Expr.negated 255) 1) :=
    (Expr.tower_negated .lowest 255).linked rfl (by decide) nofun (by decide)
  have high : (Expr.linked .plus (Expr.negated 255) 1).height = 257 := by
    rw [Expr.height_linked, Expr.height_negated]
  have text : spaced (Expr.linked .plus (Expr.negated 255) 1).tokens =
      (List.replicate 255 ['!', ' ']).flatten ++ "a + a".toList := by
    change spaced ((Expr.negated 255).tokens ++ _) = _
    rw [spaced_negated]
    rfl
  have limit : (256 : UInt64).toNat = 256 := rfl
  rw [← limit] at tower
  obtain ⟨token, e, span, parsed, same⟩ := tower.exists_parse (by omega)
  rw [text] at parsed
  refine ⟨_, parsed, _, List.mem_cons_self, e, e.mem_parts_self, ?_⟩
  change 256 < e.height
  omega

end Frontend
