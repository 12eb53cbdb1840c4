import Mathlib.Algebra.Ring.Int.Defs
import ShaderPass.Proofs.Text.Lines
import ShaderPass.Proofs.Token.Nesting
import ShaderPass.Text.Splice

/-! Argument lists: splitting at the commas outside brackets undoes joining pieces that have none, and
gives such pieces back from a list whose brackets are all closed. Where the brackets of the list nest
properly, those of each argument do. -/
namespace ShaderPass.Text

open ShaderPass.Bracket

def oneArg (depth : Int) : Text → Bool
  | [] => true
  | c :: t => !(c = ',' && depth = 0) && oneArg (depth + depthStep c) t

theorem oneArg_cons (depth : Int) (c : Char) (t : Text) :
    oneArg depth (c :: t) = (!(c = ',' && depth = 0) && oneArg (depth + depthStep c) t) :=
  rfl

def level (t : Text) : Int :=
  (t.map depthStep).sum

@[simp] theorem level_nil : level [] = 0 :=
  rfl

@[simp] theorem level_cons (c : Char) (t : Text) : level (c :: t) = depthStep c + level t := by
  rw [level, List.map_cons, List.sum_cons, level]

theorem topPieces_ne_nil (depth : Int) (t : Text) : topPieces depth t ≠ [] := by
  cases t with
  | nil => simp [topPieces]
  | cons c t =>
    rw [topPieces]
    split
    · simp
    · split <;> simp

theorem joinWith_topPieces (d : Int) (t : Text) : joinWith [','] (topPieces d t) = t := by
  induction t generalizing d with
  | nil => rfl
  | cons c t ih =>
    have rest (d : Int) : ∃ p ps, topPieces d t = p :: ps ∧ joinWith [','] (p :: ps) = t := by
      cases pieces : topPieces d t with
      | nil => exact absurd pieces (topPieces_ne_nil _ _)
      | cons p ps => exact ⟨p, ps, rfl, pieces ▸ ih d⟩
    rw [topPieces]
    split
    · rename_i comma
      rw [Bool.and_eq_true, decide_eq_true_eq] at comma
      obtain ⟨p, ps, pieces, joined⟩ := rest 0
      rw [pieces, joinWith_cons_cons, joined, comma.1]
      rfl
    · obtain ⟨p, ps, pieces, joined⟩ := rest (d + depthStep c)
      rw [pieces]
      dsimp only
      rw [← joined]
      cases ps with
      | nil => rfl
      | cons q ps => rw [joinWith_cons_cons, joinWith_cons_cons, List.cons_append]

theorem topPieces_append {depth : Int} {s t p : Text} {ps : List Text} (h : oneArg depth s = true)
    (pieces : topPieces (depth + level s) t = p :: ps) :
    topPieces depth (s ++ t) = (s ++ p) :: ps := by
  induction s generalizing depth with
  | nil => simpa using pieces
  | cons c s ih =>
    rw [oneArg_cons, Bool.and_eq_true, Bool.not_eq_true'] at h
    have rest : topPieces (depth + depthStep c) (s ++ t) = (s ++ p) :: ps := by
      apply ih h.2
      rw [← pieces, level_cons, Int.add_assoc]
    rw [List.cons_append, topPieces, if_neg (by simp [h.1]), rest]
    rfl

theorem depthStep_of_isPlain {c : Char} (h : isPlain c = true) : depthStep c = 0 := by
  simp only [isPlain, Bracket.all, List.all_cons, List.all_nil, Bool.and_true, Bool.and_eq_true,
    decide_eq_true_eq, paren, square, brace] at h
  obtain ⟨⟨h1, h2⟩, ⟨h3, h4⟩, h5, h6⟩ := h
  simp [depthStep, h1.symm, h2.symm, h3.symm, h4.symm, h5.symm, h6.symm]

theorem depthStep_opening {b : Bracket} (hb : b ∈ all) : depthStep b.opening = 1 := by
  rcases mem_all_iff.1 hb with rfl | rfl | rfl <;> rfl

theorem depthStep_closing {b : Bracket} (hb : b ∈ all) : depthStep b.closing = -1 := by
  rcases mem_all_iff.1 hb with rfl | rfl | rfl <;> rfl

theorem nested_cons {stack : List Bracket} {c : Char} {t : Text}
    (h : nested stack (c :: t) = true) : ∃ stack', (stack'.length : Int) = stack.length + depthStep c ∧
      nested stack' t = true ∧
        ∀ s, nested stack' s = true → nested stack (c :: s) = true := by
  rcases isPlain_or c with plain | ⟨b, hb, rfl⟩ | ⟨b, hb, rfl⟩
  · rw [nested_cons_of_isPlain plain] at h
    refine ⟨stack, by simp [depthStep_of_isPlain plain], h, fun s hs => ?_⟩
    rwa [nested_cons_of_isPlain plain]
  · rw [nested_cons_opening hb] at h
    refine ⟨b :: stack, by simp [depthStep_opening hb], h, fun s hs => ?_⟩
    rwa [nested_cons_opening hb]
  · obtain ⟨outer, rfl, rest⟩ := (nested_cons_closing hb _ _).1 h
    refine ⟨outer, by rw [depthStep_closing hb, List.length_cons]; omega, rest, fun s hs => ?_⟩
    exact (nested_cons_closing hb _ _).2 ⟨outer, rfl, hs⟩

theorem level_of_nested {stack : List Bracket} {t : Text} (h : nested stack t = true) :
    level t = -(stack.length : Int) := by
  induction t generalizing stack with
  | nil => simp [List.isEmpty_iff.1 h]
  | cons c t ih =>
    obtain ⟨stack', len, rest, -⟩ := nested_cons h
    have := ih rest
    rw [level_cons]
    omega

def IsPiece (t : Text) : Prop :=
  level t = 0 ∧ oneArg 0 t = true

theorem isPiece_of_topPieces {d : Int} {t y : Text} {ys : List Text} (closed : d + level t = 0)
    (pieces : topPieces d t = y :: ys) :
    d + level y = 0 ∧ oneArg d y = true ∧ ∀ z ∈ ys, IsPiece z := by
  induction t generalizing d y ys with
  | nil =>
    obtain ⟨rfl, rfl⟩ := List.cons.inj pieces
    exact ⟨closed, rfl, by simp⟩
  | cons c t ih =>
    have rest (d : Int) : ∃ p ps, topPieces d t = p :: ps := List.exists_cons_of_ne_nil (topPieces_ne_nil d t)
    rw [level_cons] at closed
    rw [topPieces] at pieces
    split at pieces
    · rename_i comma
      rw [Bool.and_eq_true, decide_eq_true_eq, decide_eq_true_eq] at comma
      obtain ⟨rfl, rfl⟩ := comma
      obtain ⟨rfl, rfl⟩ := List.cons.inj pieces
      obtain ⟨p, ps, later⟩ := rest 0
      have flat : depthStep ',' = 0 := rfl
      obtain ⟨closed_p, one_p, others⟩ := ih (by omega) later
      refine ⟨rfl, rfl, fun z hz => ?_⟩
      rw [later] at hz
      rcases List.mem_cons.1 hz with rfl | hz
      · exact ⟨by omega, one_p⟩
      · exact others z hz
    · rename_i no_comma
      obtain ⟨p, ps, later⟩ := rest (d + depthStep c)
      rw [later] at pieces
      obtain ⟨rfl, rfl⟩ := List.cons.inj pieces
      obtain ⟨closed_p, one_p, others⟩ := ih (by omega) later
      refine ⟨by rw [level_cons]; omega, ?_, others⟩
      rw [oneArg_cons, one_p, Bool.eq_false_iff.2 no_comma]
      rfl

theorem isPiece_of_mem_topPieces {t y : Text} (closed : level t = 0) (member : y ∈ topPieces 0 t) :
    IsPiece y := by
  obtain ⟨p, ps, pieces⟩ := List.exists_cons_of_ne_nil (topPieces_ne_nil 0 t)
  obtain ⟨closed_p, one_p, others⟩ := isPiece_of_topPieces (by omega) pieces
  rw [pieces] at member
  rcases List.mem_cons.1 member with rfl | member
  · exact ⟨by omega, one_p⟩
  · exact others y member

theorem topPieces_of_isPiece {t : Text} (h : IsPiece t) : topPieces 0 t = [t] := by
  have := topPieces_append (t := []) h.2 rfl
  rwa [List.append_nil] at this

theorem topPieces_append_comma {s : Text} (h : IsPiece s) (t : Text) :
    topPieces 0 (s ++ ',' :: t) = s :: topPieces 0 t := by
  have pieces : topPieces (0 + level s) (',' :: t) = [] :: topPieces 0 t := by
    rw [h.1]
    rfl
  rw [topPieces_append h.2 pieces, List.append_nil]

theorem topPieces_joinWith {args : List Text} (some_arg : args ≠ []) (h : ∀ t ∈ args, IsPiece t) :
    topPieces 0 (joinWith [','] args) = args := by
  induction args with
  | nil => exact absurd rfl some_arg
  | cons t args ih =>
    cases args with
    | nil => exact topPieces_of_isPiece (h t List.mem_cons_self)
    | cons u args =>
      rw [joinWith_cons_cons, topPieces_append_comma (h t List.mem_cons_self),
        ih (List.cons_ne_nil _ _) fun v hv => h v (List.mem_cons_of_mem _ hv)]

def IsArg (t : Text) : Prop :=
  nested [] t = true ∧ oneArg 0 t = true

theorem IsArg.isPiece {t : Text} (h : IsArg t) : IsPiece t :=
  ⟨level_of_nested h.1, h.2⟩

theorem isArg_of_topPieces {stack : List Bracket} {t y : Text} {ys : List Text}
    (h : nested stack t = true) (pieces : topPieces stack.length t = y :: ys) :
    nested stack y = true ∧ oneArg stack.length y = true ∧ y <+: t ∧
      ∀ z ∈ ys, IsArg z ∧ z <:+: t := by
  induction t generalizing stack y ys with
  | nil =>
    obtain ⟨rfl, rfl⟩ := List.cons.inj pieces
    exact ⟨h, rfl, List.prefix_refl _, by simp⟩
  | cons c t ih =>
    obtain ⟨stack', len, rest, read⟩ := nested_cons h
    rw [topPieces] at pieces
    split at pieces
    · rename_i comma
      rw [Bool.and_eq_true, decide_eq_true_eq, decide_eq_true_eq] at comma
      obtain ⟨rfl, rfl⟩ := List.cons.inj pieces
      have empty : stack = [] := List.length_eq_zero_iff.1 (by omega)
      rw [comma.1] at len
      have empty' : stack' = [] := by
        apply List.length_eq_zero_iff.1
        simp only [empty, depthStep] at len
        simpa using len
      subst empty empty'
      refine ⟨rfl, rfl, List.nil_prefix, fun z hz => ?_⟩
      cases later : topPieces 0 t with
      | nil => exact absurd later (topPieces_ne_nil _ _)
      | cons p ps =>
        obtain ⟨nested_p, one_p, front, args⟩ := ih rest later
        rw [later] at hz
        rcases List.mem_cons.1 hz with rfl | hz
        · exact ⟨⟨nested_p, one_p⟩, front.isInfix.trans (List.infix_cons (List.infix_refl t))⟩
        · exact ⟨(args z hz).1, (args z hz).2.trans (List.infix_cons (List.infix_refl t))⟩
    · rename_i no_comma
      rw [← len] at pieces
      cases later : topPieces stack'.length t with
      | nil => exact absurd later (topPieces_ne_nil _ _)
      | cons p ps =>
        rw [later] at pieces
        obtain ⟨rfl, rfl⟩ := List.cons.inj pieces
        obtain ⟨nested_p, one_p, front, args⟩ := ih rest later
        refine ⟨read p nested_p, ?_, (List.prefix_cons_inj c).2 front, fun z hz => ?_⟩
        · rw [oneArg_cons, ← len, one_p, Bool.eq_false_iff.2 no_comma]
          rfl
        · exact ⟨(args z hz).1, (args z hz).2.trans (List.infix_cons (List.infix_refl t))⟩

def isStructural (c : Char) : Bool :=
  c = ',' || !isPlain c

theorem nested_filter (stack : List Bracket) (t : Text) :
    nested stack (t.filter isStructural) = nested stack t := by
  induction t generalizing stack with
  | nil => rfl
  | cons c t ih =>
    rcases isPlain_or c with plain | ⟨b, hb, rfl⟩ | ⟨b, hb, rfl⟩
    · rw [List.filter_cons, nested_cons_of_isPlain plain]
      split
      · rw [nested_cons_of_isPlain plain, ih]
      · exact ih stack
    · have kept : isStructural b.opening = true := by
        rcases mem_all_iff.1 hb with rfl | rfl | rfl <;> rfl
      rw [List.filter_cons_of_pos kept, nested_cons_opening hb, nested_cons_opening hb, ih]
    · have kept : isStructural b.closing = true := by
        rcases mem_all_iff.1 hb with rfl | rfl | rfl <;> rfl
      rw [List.filter_cons_of_pos kept, Bool.eq_iff_iff, nested_cons_closing hb,
        nested_cons_closing hb]
      simp only [ih]

theorem oneArg_filter (depth : Int) (t : Text) :
    oneArg depth (t.filter isStructural) = oneArg depth t := by
  induction t generalizing depth with
  | nil => rfl
  | cons c t ih =>
    rw [List.filter_cons]
    split
    · rw [oneArg_cons, oneArg_cons, ih]
    · rename_i dropped
      simp only [isStructural, Bool.or_eq_true, decide_eq_true_eq, Bool.not_eq_true', not_or,
        Bool.not_eq_false] at dropped
      rw [oneArg_cons, ih, depthStep_of_isPlain dropped.2, Int.add_zero]
      simp [dropped.1]

theorem level_filter (t : Text) : level (t.filter isStructural) = level t := by
  induction t with
  | nil => rfl
  | cons c t ih =>
    rw [List.filter_cons]
    split
    · rw [level_cons, level_cons, ih]
    · rename_i dropped
      simp only [isStructural, Bool.or_eq_true, Bool.not_eq_true', not_or, Bool.not_eq_false] at dropped
      rw [level_cons, ih, depthStep_of_isPlain dropped.2, Int.zero_add]

theorem IsPiece.of_filter {s t : Text} (h : IsPiece s)
    (same : t.filter isStructural = s.filter isStructural) : IsPiece t := by
  constructor
  · rw [← level_filter, same, level_filter]
    exact h.1
  · rw [← oneArg_filter, same, oneArg_filter]
    exact h.2

theorem IsArg.of_filter {s t : Text} (h : IsArg s)
    (same : t.filter isStructural = s.filter isStructural) : IsArg t := by
  constructor
  · rw [← nested_filter, same, nested_filter]
    exact h.1
  · rw [← oneArg_filter, same, oneArg_filter]
    exact h.2

end ShaderPass.Text
