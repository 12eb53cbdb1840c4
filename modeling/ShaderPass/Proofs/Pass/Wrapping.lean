import ShaderPass.Pass.Source
import ShaderPass.Proofs.FunctionDef.Appending

/-! The main that calls an entry of another name. It comes behind the functions of the text, if at all,
and whether there is one already is not looked at. -/
namespace ShaderPass.ShaderSource

open Token FunctionDef Text ShaderPass.Bracket
open LiveCode (wording)

def mainOpenings : List Text :=
  ["void main() \x7b ".toList, "void main() \x7b gl_Position = ".toList,
    "void main() \x7b cc_FragColor = ".toList]

def mainLine (opening entry : Text) : Text :=
  opening ++ (entry ++ "(); \x7d".toList)

def outputLine : Text :=
  "layout(location = 0) out vec4 cc_FragColor;".toList

theorem toList_mainFor (stage : Stage) (returnType entry : String) : ∃ opening ∈ mainOpenings,
    (mainFor stage returnType entry).toList = mainLine opening entry.toList ∨
      (mainFor stage returnType entry).toList = outputLine ++ '\n' :: mainLine opening entry.toList := by
  unfold mainFor
  split
  · refine ⟨_, .tail _ (.head _), .inl ?_⟩
    rw [String.toList_append, String.toList_append, List.append_assoc]
    rfl
  · refine ⟨_, .tail _ (.tail _ (.head _)), .inr ?_⟩
    have ended : "layout(location = 0) out vec4 cc_FragColor;\n".toList = outputLine ++ ['\n'] := by
      decide +kernel
    rw [String.toList_append, String.toList_append, String.toList_append, ended]
    simp only [List.append_assoc]
    rfl
  · refine ⟨_, .head _, .inl ?_⟩
    rw [String.toList_append, String.toList_append, List.append_assoc]
    rfl

theorem pieces_append_name {front : List (TokenKind × Text)} {lineStart : Bool} {s w t : Text}
    (cut : pieces lineStart (s ++ ['f']) = front ++ [(.identifier, ['f'])]) (isName : IsName w)
    (free : isFree t.head? = true) :
    pieces lineStart (s ++ (w ++ t)) = front ++ (.identifier, w) :: pieces false t := by
  have text : (front.map Prod.snd).flatten = s := by
    have := flatten_pieces lineStart (s ++ ['f'])
    rw [cut, List.map_append, List.flatten_append] at this
    exact (List.append_inj' this rfl).1
  rw [← text] at cut ⊢
  have named := isName
  obtain ⟨c, more, rfl, start, -⟩ := named
  have pieces_eq := pieces_front (c := 'f') (by decide) start cut (more ++ t)
  rw [← List.cons_append] at pieces_eq
  rw [pieces_eq, pieces_name isName free]

theorem filter_mainEnd : (pieces false "(); \x7d\n".toList).filter isMeant =
    [(.punct, ['(']), (.punct, [')']), (.punct, [';']), (.punct, ['\x7d'])] := by
  decide +kernel

def mainHead : List (TokenKind × Text) :=
  [(.identifier, "void".toList), (.identifier, "main".toList), (.punct, ['(']), (.punct, [')']),
    (.punct, ['\x7b'])]

theorem exists_filter_opening : ∀ opening ∈ mainOpenings, ∀ lineStart : Bool,
    ∃ front body : List (TokenKind × Text),
      pieces lineStart ('\n' :: opening ++ ['f']) = front ++ [(.identifier, ['f'])] ∧
        front.filter isMeant = mainHead ++ body ∧
        ∀ p ∈ body, p.2.head? ≠ some '\x7b' ∧ p.2.head? ≠ some '\x7d' := by
  have cut : ∀ opening ∈ mainOpenings, ∀ lineStart : Bool,
      let ps := pieces lineStart ('\n' :: opening ++ ['f'])
      ps = ps.dropLast ++ [(.identifier, ['f'])] ∧
        ps.dropLast.filter isMeant = mainHead ++ (ps.dropLast.filter isMeant).drop 5 ∧
        ∀ p ∈ (ps.dropLast.filter isMeant).drop 5,
          p.2.head? ≠ some '\x7b' ∧ p.2.head? ≠ some '\x7d' := by
    decide +kernel
  exact fun opening known lineStart => ⟨_, _, cut opening known lineStart⟩

theorem weight_eq_zero_of_head? {k : Token}
    (plain : k.lexeme.head? ≠ some '\x7b' ∧ k.lexeme.head? ≠ some '\x7d') : brace.weight k = 0 := by
  rw [weight_eq_zero_iff]
  simp [isPunct, brace, plain]

theorem adds_mainLine {opening entry : Text} (known : opening ∈ mainOpenings) (isName : IsName entry)
    (n : Nat) (lineStart : Bool) :
    Adds (sig n (pieces lineStart ('\n' :: (mainLine opening entry ++ ['\n'])))) ["main"] := by
  obtain ⟨front, body, cut, head, plain⟩ := exists_filter_opening opening known lineStart
  have text : '\n' :: (mainLine opening entry ++ ['\n']) =
      ('\n' :: opening) ++ (entry ++ "(); \x7d\n".toList) := by
    rw [mainLine, List.append_assoc, List.append_assoc]
    rfl
  have tokens : wording (sig n (pieces lineStart ('\n' :: (mainLine opening entry ++ ['\n'])))) =
      mainHead ++ ((body ++ [(.identifier, entry), (.punct, ['(']), (.punct, [')']), (.punct, [';'])]) ++
        [(.punct, ['\x7d'])]) := by
    rw [wording_sig, text, pieces_append_name cut isName rfl, List.filter_append, List.filter_cons_of_pos rfl,
      filter_mainEnd, head]
    simp
  have no_block : ∀ k : Token, (k.kind, k.lexeme) ∈
      body ++ [(.identifier, entry), (.punct, ['(']), (.punct, [')']), (.punct, [';'])] →
        brace.weight k = 0 := by
    intro k member
    rcases List.mem_append.1 member with member | member
    · exact weight_eq_zero_of_head? (plain _ member)
    rcases List.mem_cons.1 member with same | member
    · have identifier : k.kind = .identifier := (Prod.mk.inj same).1
      simp [weight, isPunct, identifier]
    · have ends : ∀ p ∈ [(TokenKind.punct, ['(']), (.punct, [')']), (.punct, [';'])],
          p.2.head? ≠ some '\x7b' ∧ p.2.head? ≠ some '\x7d' := by decide
      exact weight_eq_zero_of_head? (ends _ member)
  have named := adds_of_wording tokens no_block
  rwa [String.ofList_toList] at named

theorem adds_of_blank {t : Text} (blank : t.all isBlank = true) (n : Nat) (lineStart : Bool) :
    Adds (sig n (pieces lineStart t)) [] := by
  refine adds_of_plain fun k member => weight_eq_zero_of_head? ?_
  have inside : ∀ c ∈ k.lexeme, c ∈ t := by
    intro c hc
    rw [← flatten_pieces lineStart t]
    exact List.mem_flatten.2 ⟨k.lexeme, List.mem_map_of_mem (f := Prod.snd) (mem_of_mem_sig member), hc⟩
  constructor <;>
    exact fun head => absurd (List.all_eq_true.1 blank _ (inside _ (List.mem_of_mem_head? head))) (by decide)

def isLineChar (c : Char) : Bool :=
  c ≠ '\n' && c ≠ '\\' && c ≠ '/'

theorem drop_directiveLength_line {line later : Text} (plain : line.all isLineChar = true) :
    (line ++ '\n' :: later).drop (directiveLength false (line ++ '\n' :: later)) = '\n' :: later := by
  induction line with
  | nil => rfl
  | cons c line ih =>
    rw [List.all_cons, Bool.and_eq_true] at plain
    obtain ⟨here, rest⟩ := plain
    simp only [isLineChar, Bool.and_eq_true, decide_eq_true_eq] at here
    rw [List.cons_append, directiveLength, if_neg here.1.1]
    simp only [here.1.2, decide_false, Bool.and_false, Bool.or_false, List.drop_succ_cons]
    exact ih rest

theorem adds_outputLine {later : Text} {added : List String}
    (h : ∀ n lineStart, Adds (sig n (pieces lineStart ('\n' :: later))) added) (n : Nat) (lineStart : Bool) :
    Adds (sig n (pieces lineStart ('\n' :: (outputLine ++ '\n' :: later)))) added := by
  have cut : ∀ lineStart : Bool, let ps := pieces lineStart ('\n' :: (outputLine ++ ['\n']))
      flat ps.dropLast = '\n' :: outputLine ∧ ps = ps.dropLast ++ [(.blank, ['\n'])] ∧
        ∀ p ∈ ps.dropLast, p.2.head? ≠ some '\x7b' ∧ p.2.head? ≠ some '\x7d' := by
    decide +kernel
  obtain ⟨text, front, plain⟩ := cut lineStart
  generalize (pieces lineStart ('\n' :: (outputLine ++ ['\n']))).dropLast = ps at text front plain
  rw [← List.cons_append, ← text] at front ⊢
  rw [pieces_flat_append front, sig_append]
  exact (h _ _).append_plain fun k member => weight_eq_zero_of_head? (plain _ (mem_of_mem_sig member))

theorem all_outputLine : outputLine.all isLineChar = true := by
  decide +kernel

theorem all_mainLine {opening entry : Text} (known : opening ∈ mainOpenings) (isName : IsName entry) :
    (mainLine opening entry).all isLineChar = true := by
  have fixed : ∀ opening ∈ mainOpenings, opening.all isLineChar = true := by decide +kernel
  have ends : "(); \x7d".toList.all isLineChar = true := by decide +kernel
  have name : entry.all isLineChar = true := by
    refine List.all_eq_true.2 fun c member => ?_
    have ident := isName.isWord.2 c member
    simp only [isLineChar, Bool.and_eq_true, decide_eq_true_eq]
    refine ⟨⟨?_, ?_⟩, ?_⟩ <;>
      · rintro rfl
        cases ident
  rw [mainLine, List.all_append, List.all_append, fixed opening known, name, ends]
  rfl

def AddsMain (us : List Token) : Prop :=
  Adds us [] ∨ Adds us ["main"]

theorem addsMain_of_left {line later rest : Text} (plain : line.all isLineChar = true)
    (whole : ∀ n lineStart, AddsMain (sig n (pieces lineStart ('\n' :: (line ++ '\n' :: later)))))
    (behind : ∀ n lineStart, AddsMain (sig n (pieces lineStart ('\n' :: later))))
    (left : Left ('\n' :: (line ++ '\n' :: later)) rest) (n : Nat) (lineStart : Bool) :
    AddsMain (sig n (pieces lineStart rest)) := by
  cases left with
  | all => exact whole n lineStart
  | none => exact .inl (adds_of_blank rfl n lineStart)
  | line continued =>
    cases continued with
    | false => exact whole n lineStart
    | true =>
      have swallowed : ('\n' :: (line ++ '\n' :: later)).drop
          (directiveLength true ('\n' :: (line ++ '\n' :: later))) = '\n' :: later :=
        drop_directiveLength_line plain
      rw [swallowed]
      exact behind n lineStart
  | remark => exact whole n lineStart

theorem apart_mainFor (stage : Stage) (returnType : String) {entry : String} (isName : IsName entry.toList) :
    Apart ('\n' :: ((mainFor stage returnType entry).toList ++ ['\n'])) := by
  obtain ⟨opening, known, text⟩ := toList_mainFor stage returnType entry
  have no_slash {line : Text} (plain : line.all isLineChar = true) : '/' ∉ line :=
    fun slash => Bool.false_ne_true (List.all_eq_true.1 plain '/' slash)
  have line := no_slash (all_mainLine known isName)
  have output := no_slash all_outputLine
  constructor
  · rcases text with text | text
    · simp [text, line]
    · simp [text, line, output]
  · intro c head
    rw [← Option.some.inj head]
    rfl

theorem addsMain_mainFor {stage : Stage} {returnType entry : String} (isName : IsName entry.toList)
    {rest : Text} (left : Left ('\n' :: ((mainFor stage returnType entry).toList ++ ['\n'])) rest)
    (n : Nat) (lineStart : Bool) : AddsMain (sig n (pieces lineStart rest)) := by
  obtain ⟨opening, known, text⟩ := toList_mainFor stage returnType entry
  have line (n : Nat) (lineStart : Bool) := adds_mainLine known isName n lineStart
  rcases text with text | text
  · rw [text] at left
    exact addsMain_of_left (all_mainLine known isName)
      (fun n lineStart => .inr (line n lineStart)) (fun n lineStart => .inl (adds_of_blank rfl n lineStart))
      left n lineStart
  · rw [text, List.append_assoc, List.cons_append] at left
    exact addsMain_of_left all_outputLine (fun n lineStart => .inr (adds_outputLine line n lineStart))
      (fun n lineStart => .inr (line n lineStart)) left n lineStart

theorem isName_of_mem_find {t : Text} {f : FunctionDef} (member : f ∈ find t) : IsName f.name.toList := by
  obtain ⟨g, found, rfl⟩ := List.mem_map.1 member
  obtain ⟨k, inside, identifier, named⟩ := exists_name_of_mem_scan found
  have text : g.name.toList = k.lexeme := by rw [named, Token.name, String.toList_ofList]
  rw [show ({ g with deps := _ } : FunctionDef).name = g.name from rfl, text]
  exact (isName_of_isIdentifier inside identifier).1

theorem exists_names_trimEnd (t : Text) {x : Text} (apart : Apart x)
    (adds : ∀ rest, Left x rest → ∀ n lineStart, AddsMain (sig n (pieces lineStart rest))) :
    ∃ added, (added = [] ∨ added = ["main"]) ∧
      names [] (significant (trimEnd t ++ x)) = names [] (significant t) ++ added := by
  have visible : ∀ c ∈ (trimEnd t).getLast?, isTokenBlank c = false := by
    intro c last
    rw [Bool.eq_false_iff]
    intro blank
    have solid := getLast?_trimEndWhile last
    rw [isBlank_of_isTokenBlank blank] at solid
    cases solid
  obtain ⟨first, names_eq⟩ := exists_names_text visible
  have old : names [] (significant t) = first := by
    obtain ⟨b, whole, blank⟩ := exists_trimEndWhile isBlank t
    have apart_b : Apart b :=
      ⟨fun slash => absurd (blank _ slash) (by decide), fun c head => blank c (List.mem_of_mem_head? head)⟩
    have nothing (rest : Text) (left : Left b rest) (n : Nat) (lineStart : Bool) :
        ∃ added, added = [] ∧ Adds (sig n (pieces lineStart rest)) added :=
      ⟨[], rfl, adds_of_blank (List.all_eq_true.2 fun c hc => blank c (left.suffix.mem hc)) n lineStart⟩
    obtain ⟨_, rfl, same⟩ := names_eq b apart_b (· = []) rfl nothing
    rwa [List.append_nil, show trimEnd t ++ b = t from whole.symm] at same
  rw [old]
  refine names_eq x apart (fun added => added = [] ∨ added = ["main"]) (.inl rfl)
    fun rest left n lineStart => ?_
  rcases adds rest left n lineStart with none | main
  · exact ⟨[], .inl rfl, none⟩
  · exact ⟨["main"], .inr rfl, main⟩

/-- Wrapping keeps the functions of a text and adds at most one behind them, a main for an entry of another
name that the text defines. -/
theorem exists_names_wrapEntry (t : Text) (stage : Stage) (entry : String) : ∃ added,
    (find (wrapEntry t stage entry)).map FunctionDef.name = (find t).map FunctionDef.name ++ added ∧
      (added = [] ∨ added = ["main"] ∧ entry ≠ "main" ∧ entry ∈ (find t).map FunctionDef.name) := by
  have unchanged : ∃ added, (find t).map FunctionDef.name = (find t).map FunctionDef.name ++ added ∧
      (added = [] ∨ added = ["main"] ∧ entry ≠ "main" ∧ entry ∈ (find t).map FunctionDef.name) :=
    ⟨[], (List.append_nil _).symm, .inl rfl⟩
  rw [wrapEntry]
  split
  · exact unchanged
  rename_i other
  split
  · rename_i f found
    have member : f ∈ find t := List.mem_of_find?_eq_some found
    have named : f.name = entry := by simpa using List.find?_some found
    have isName : IsName entry.toList := named ▸ isName_of_mem_find member
    obtain ⟨added, one, same⟩ := exists_names_trimEnd t (apart_mainFor stage f.returnType isName)
      fun rest => addsMain_mainFor isName
    refine ⟨added, ?_, one.imp_right fun main => ⟨main, other, ?_⟩⟩
    · rw [map_name_find, map_name_find, List.append_assoc, List.cons_append, same]
    · exact named ▸ List.mem_map_of_mem member
  · exact unchanged

def mains (t : Text) : Nat :=
  ((find t).map FunctionDef.name).count "main"

/-- A text has one main at most after wrapping if it has no main beside an entry of another name. What is
added to its functions is that one. -/
theorem mains_wrapEntry_le_one {t : Text} {entry : String} (stage : Stage) (single : mains t ≤ 1)
    (free : entry ≠ "main" → entry ∈ (find t).map FunctionDef.name → mains t = 0) :
    mains (wrapEntry t stage entry) ≤ 1 ∧
      ∃ added, (find (wrapEntry t stage entry)).map FunctionDef.name =
          (find t).map FunctionDef.name ++ added ∧
        (added = [] ∨ added = ["main"] ∧ entry ≠ "main" ∧ entry ∈ (find t).map FunctionDef.name) := by
  obtain ⟨added, names_eq, one⟩ := exists_names_wrapEntry t stage entry
  refine ⟨?_, added, names_eq, one⟩
  rw [mains, names_eq, List.count_append]
  rcases one with rfl | ⟨rfl, other, defined⟩
  · exact single
  · exact Nat.add_le_add_right (Nat.le_of_eq (free other defined)) 1

theorem mains_wrapEntry_le_one_of_entry :
    let t := "vec4 frag() \x7b return vec4(1.0); \x7d".toList
    let commented := t ++ "/* no end".toList
    (mains (wrapEntry t .fragment "frag") = 1 ∧ mains (wrapEntry commented .fragment "frag") = 0) ∧
      mains (wrapEntry t .fragment "frag") ≤ 1 ∧ mains (wrapEntry commented .fragment "frag") ≤ 1 := by
  intro t commented
  refine ⟨by decide +kernel, (mains_wrapEntry_le_one .fragment ?_ ?_).1,
    (mains_wrapEntry_le_one .fragment ?_ ?_).1⟩ <;> decide +kernel

/-- A text with a main beside another entry has two mains after wrapping. -/
theorem not_mains_wrapEntry_le_one :
    let t := "void frag() \x7b\x7d\nvoid main() \x7b frag(); \x7d".toList
    mains t = 1 ∧ mains (wrapEntry t .fragment "frag") = 2 := by
  decide +kernel

end ShaderPass.ShaderSource
