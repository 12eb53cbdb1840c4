import ShaderPass.Proofs.ConstExpr.Grammar

/-! Reading lexemes against the grammar: a value is read off some lexemes if and only if the grammar
derives a tree of them that evaluates to it. -/
namespace ShaderPass.ConstExpr

def Reads (version : Option Int) (tiers : List (List Op)) (ts : List Lexeme) (b : Int)
    (rest : List Lexeme) : Prop :=
  ∃ shorter, read version tiers ts = .ok ⟨b, rest, shorter⟩

def Extends (version : Option Int) (tier : List Op) (tighter : List (List Op)) (a : Int)
    (ts : List Lexeme) (b : Int) (rest : List Lexeme) : Prop :=
  ∃ noLonger, extend version tier tighter a ts = .ok ⟨b, rest, noLonger⟩

section Inversion

variable {version : Option Int} {tiers tighter : List (List Op)} {tier : List Op}
  {ts rest : List Lexeme} {a b : Int}

theorem reads_of_eq_ok {r : Reading ts} (h : read version tiers ts = .ok r) :
    Reads version tiers ts r.value r.rest :=
  ⟨r.shorter, h⟩

theorem extends_of_eq_ok {c : Continuation ts} (h : extend version tier tighter a ts = .ok c) :
    Extends version tier tighter a ts c.value c.rest :=
  ⟨c.noLonger, h⟩

theorem reads_tier_iff : Reads version (tier :: tighter) ts b rest ↔
    ∃ a mid, Reads version tighter ts a mid ∧ Extends version tier tighter a mid b rest := by
  constructor
  · rintro ⟨shorter, h⟩
    rw [read] at h
    obtain ⟨first, hfirst, h⟩ := bind_eq_ok_iff.1 h
    obtain ⟨all, hall, h⟩ := bind_eq_ok_iff.1 h
    cases h
    exact ⟨_, _, reads_of_eq_ok hfirst, extends_of_eq_ok hall⟩
  · rintro ⟨a, mid, ⟨shorter, hfirst⟩, noLonger, hall⟩
    refine ⟨by omega, ?_⟩
    rw [read, hfirst]
    simp only [bind, Except.bind, hall, pure, Except.pure]

theorem reads_sign_iff {s : Sign} : Reads version [] (.op s.op :: ts) b rest ↔
    ∃ a, Reads version [] ts a rest ∧ (s = .minus → Fits (s.result a)) ∧ s.result a = b := by
  constructor
  · rintro ⟨shorter, h⟩
    cases s with
    | not | plus =>
      rw [Sign.op, read] at h
      obtain ⟨operand, hoperand, h⟩ := bind_eq_ok_iff.1 h
      cases h
      exact ⟨_, reads_of_eq_ok hoperand, (fun other => by cases other), by simp [Sign.result, truth_decide]⟩
    | minus =>
      rw [Sign.op, read] at h
      obtain ⟨operand, hoperand, h⟩ := bind_eq_ok_iff.1 h
      obtain ⟨value, hvalue, h⟩ := bind_eq_ok_iff.1 h
      obtain ⟨fits, rfl⟩ := inRange_eq_ok_iff.1 hvalue
      cases h
      exact ⟨_, reads_of_eq_ok hoperand, fun _ => fits, rfl⟩
  · rintro ⟨a, ⟨shorter, hoperand⟩, fits, rfl⟩
    refine ⟨Nat.lt_succ_of_lt shorter, ?_⟩
    cases s with
    | not | plus =>
      rw [Sign.op, read, hoperand]
      simp [bind, Except.bind, pure, Except.pure, Sign.result, truth_decide]
    | minus =>
      rw [Sign.op, read, hoperand]
      have value : inRange (-a) = .ok (-a) := inRange_eq_ok_iff.2 ⟨fits rfl, rfl⟩
      simp only [bind, Except.bind, value, pure, Except.pure, Sign.result]

theorem reads_int_iff {n : Nat} : Reads version [] (.int n :: ts) b rest ↔ n = b ∧ ts = rest := by
  grind [Reads, read]

theorem reads_ident_iff {name : String} : Reads version [] (.ident name :: ts) b rest ↔
    name = versionIdent ∧ version = some b ∧ ts = rest := by
  cases version <;> grind [Reads, read]

theorem reads_group_iff : Reads version [] (.op .opening :: ts) b rest ↔
    Reads version levels ts b (.op .closing :: rest) := by
  constructor
  · rintro ⟨shorter, h⟩
    rw [read] at h
    obtain ⟨inner, hinner, h⟩ := bind_eq_ok_iff.1 h
    have reads := reads_of_eq_ok hinner
    split at h
    · rename_i after closed
      cases h
      rwa [closed] at reads
    · cases h
  · rintro ⟨shorter, hinner⟩
    refine ⟨by simp at shorter ⊢; omega, ?_⟩
    rw [read, hinner]
    simp only [bind, Except.bind, pure, Except.pure]

theorem not_reads_nil : ¬Reads version [] [] b rest := by
  simp [Reads, read]

theorem not_reads_op {o : Op} (sign : ∀ s : Sign, s.op ≠ o) (opening : o ≠ .opening) :
    ¬Reads version [] (.op o :: ts) b rest := by
  rintro ⟨shorter, h⟩
  cases o with
  | not => exact sign .not rfl
  | sub => exact sign .minus rfl
  | add => exact sign .plus rfl
  | opening => exact opening rfl
  | _ => simp [read] at h

theorem extends_op_iff {o : Op} (mem : o ∈ tier) :
    Extends version tier tighter a (.op o :: ts) b rest ↔
      ∃ c mid d, Reads version tighter ts c mid ∧ o.apply a c = .ok d ∧
        Extends version tier tighter d mid b rest := by
  constructor
  · rintro ⟨noLonger, h⟩
    rw [extend, if_pos mem] at h
    obtain ⟨operand, hoperand, h⟩ := bind_eq_ok_iff.1 h
    obtain ⟨value, hvalue, h⟩ := bind_eq_ok_iff.1 h
    obtain ⟨all, hall, h⟩ := bind_eq_ok_iff.1 h
    cases h
    exact ⟨_, _, _, reads_of_eq_ok hoperand, hvalue, extends_of_eq_ok hall⟩
  · rintro ⟨c, mid, d, ⟨shorter, hoperand⟩, hvalue, noLonger, hall⟩
    refine ⟨by simp; omega, ?_⟩
    rw [extend, if_pos mem, hoperand]
    simp only [bind, Except.bind, hvalue, hall, pure, Except.pure]

theorem extends_stop_iff (stop : ∀ o ∈ tier, ts.head? ≠ some (.op o)) :
    Extends version tier tighter a ts b rest ↔ a = b ∧ ts = rest := by
  unfold Extends
  match ts with
  | [] | .int n :: ts | .ident name :: ts => grind [extend]
  | .op o :: ts =>
    have outside : o ∉ tier := fun mem => stop o mem rfl
    rw [extend, if_neg outside]
    grind

end Inversion

section Soundness

variable {version : Option Int64}

def LiteralsFit (ts : List Lexeme) : Prop :=
  ∀ n : Nat, .int n ∈ ts → Fits n

theorem LiteralsFit.of_append {us ts : List Lexeme} (h : LiteralsFit (us ++ ts)) : LiteralsFit ts :=
  fun n mem => h n (List.mem_append_right us mem)

theorem LiteralsFit.of_cons {t : Lexeme} {ts : List Lexeme} (h : LiteralsFit (t :: ts)) :
    LiteralsFit ts :=
  fun n mem => h n (List.mem_cons_of_mem t mem)

theorem Sign.fits_result {s : Sign} {a : Int} (h : Fits a)
    (minus : s = .minus → Fits (s.result a)) : Fits (s.result a) := by
  cases s with
  | not => exact fits_ite _
  | minus => exact minus rfl
  | plus => exact h

def ReadSound (version : Option Int64) (tiers : List (List Op)) (ts : List Lexeme) : Prop :=
  ∀ k b rest, tiers = levels.drop k → k ≤ 6 → LiteralsFit ts →
    Reads (version.map Int64.toInt) tiers ts b rest →
    ∃ us e, ts = us ++ rest ∧ Derives k us e ∧ Evaluates version e b

def ExtendSound (version : Option Int64) (tier : List Op) (tighter : List (List Op)) (a : Int)
    (ts : List Lexeme) : Prop :=
  ∀ k b rest ls l, tier :: tighter = levels.drop k → LiteralsFit ts → Derives k ls l →
    Evaluates version l a → Extends (version.map Int64.toInt) tier tighter a ts b rest →
    ∃ us e, ts = us ++ rest ∧ Derives k (ls ++ us) e ∧ Evaluates version e b

theorem readSound_sign {s : Sign} {ts : List Lexeme} (operand : ReadSound version [] ts) :
    ReadSound version [] (.op s.op :: ts) := by
  intro k b rest at_level le fit reads
  obtain rfl := Nat.le_antisymm le (six_le_of_no_tier at_level)
  obtain ⟨a, inner, minus, rfl⟩ := reads_sign_iff.1 reads
  obtain ⟨us, e, rfl, derives, evaluates⟩ := operand 6 a rest rfl le fit.of_cons inner
  exact ⟨.op s.op :: us, .signed s e, rfl, .signed s derives,
    .signed evaluates (Sign.fits_result evaluates.fits minus)⟩

theorem readSound_ident {name : String} {ts : List Lexeme} :
    ReadSound version [] (.ident name :: ts) := by
  intro k b rest at_level le fit reads
  obtain rfl := Nat.le_antisymm le (six_le_of_no_tier at_level)
  obtain ⟨rfl, some_given, rfl⟩ := reads_ident_iff.1 reads
  obtain ⟨v, given, rfl⟩ := Option.map_eq_some_iff.1 some_given
  exact ⟨[.ident versionIdent], .version, rfl, .tighter .version, .version given⟩

theorem read_sound_all (version : Option Int64) :
    (∀ tiers ts, ReadSound version tiers ts) ∧
      ∀ tier tighter a ts, ExtendSound version tier tighter a ts := by
  -- Reading and continuing call each other, so one induction over their calls serves both.
  refine read.mutual_induct (version.map Int64.toInt) (ReadSound version) (ExtendSound version)
    ?tier ?empty ?not ?minus ?plus ?int ?version ?unknown ?unset ?group ?stray ?apply ?looser ?operand
  case tier =>
    intro tier tighter ts inner later k b rest at_level le fit reads
    have top := le_five_of_tier at_level
    obtain ⟨a, mid, first, all⟩ := reads_tier_iff.1 reads
    obtain ⟨ls, l, rfl, derives, evaluates⟩ :=
      inner (k + 1) a mid (tighter_eq_drop at_level) (by omega) fit first
    obtain ⟨shorter, found⟩ := first
    obtain ⟨us, e, rfl, derives, evaluates⟩ := later ⟨a, mid, shorter⟩ k b rest ls l at_level
      fit.of_append (.tighter derives) evaluates all
    exact ⟨ls ++ us, e, (List.append_assoc _ _ _).symm, derives, evaluates⟩
  case empty => exact fun k b rest _ _ _ reads => absurd reads not_reads_nil
  case not => exact fun ts => readSound_sign (s := .not)
  case minus => exact fun ts => readSound_sign (s := .minus)
  case plus => exact fun ts => readSound_sign (s := .plus)
  case int =>
    intro n ts k b rest at_level le fit reads
    obtain rfl := Nat.le_antisymm le (six_le_of_no_tier at_level)
    obtain ⟨rfl, rfl⟩ := reads_int_iff.1 reads
    exact ⟨[.int n], _, rfl, .tighter (.literal n), .literal (fit n List.mem_cons_self)⟩
  case version =>
    exact fun ts v _ => readSound_ident
  case unknown => exact fun name ts v _ _ => readSound_ident
  case unset => exact fun name ts _ => readSound_ident
  case group =>
    intro ts inner k b rest at_level le fit reads
    obtain rfl := Nat.le_antisymm le (six_le_of_no_tier at_level)
    obtain ⟨us, e, rfl, derives, evaluates⟩ :=
      inner 0 b _ rfl (by omega) fit.of_cons (reads_group_iff.1 reads)
    exact ⟨.op .opening :: (us ++ [.op .closing]), e, by simp, .tighter (.group derives), evaluates⟩
  case stray =>
    intro o ts not minus plus opening k b rest _ _ _ reads
    refine absurd reads (not_reads_op (fun s => ?_) fun h => opening h)
    cases s with
    | not => exact fun h => not h.symm
    | minus => exact fun h => minus h.symm
    | plus => exact fun h => plus h.symm
  case apply =>
    intro tier tighter a o ts mem operand later k b rest ls l at_level fit derives evaluates all
    have level := (mem_tier_iff at_level).1 mem
    have top := le_five_of_tier at_level
    obtain ⟨c, mid, d, reads, applied, all⟩ := (extends_op_iff mem).1 all
    obtain ⟨rs, r, rfl, right, value⟩ :=
      operand (k + 1) c mid (tighter_eq_drop at_level) (by omega) fit.of_cons reads
    obtain ⟨applies, fits, rfl⟩ := (apply_eq_ok_iff level evaluates.fits value.fits).1 applied
    obtain ⟨shorter, found⟩ := reads
    obtain ⟨us, e, rfl, whole, evaluates⟩ := later ⟨c, mid, shorter⟩ _ k b rest _ _ at_level
      fit.of_cons.of_append (.binary level derives right) (.binary evaluates value applies fits) all
    refine ⟨.op o :: (rs ++ us), e, by simp, ?_, evaluates⟩
    rwa [List.append_assoc] at whole
  case looser =>
    intro tier tighter a o ts outside k b rest ls l at_level fit derives evaluates all
    have stop : ∀ o' ∈ tier, (Lexeme.op o :: ts).head? ≠ some (.op o') := by
      rintro o' mem same
      cases same
      exact outside mem
    obtain ⟨rfl, rfl⟩ := (extends_stop_iff stop).1 all
    exact ⟨[], l, rfl, by rwa [List.append_nil], evaluates⟩
  case operand =>
    intro tier tighter a ts other k b rest ls l at_level fit derives evaluates all
    have stop : ∀ o ∈ tier, ts.head? ≠ some (.op o) := by
      rintro o mem same
      obtain ⟨later, rfl⟩ := List.head?_eq_some_iff.1 same
      exact other o later rfl
    obtain ⟨rfl, rfl⟩ := (extends_stop_iff stop).1 all
    exact ⟨[], l, rfl, by rwa [List.append_nil], evaluates⟩

end Soundness

section Completeness

def EndsAt (k : Nat) (ts : List Lexeme) : Prop :=
  ∀ o j, ts.head? = some (.op o) → o.level? = some j → j < k

def Continues (version : Option Int) (tiers : List (List Op)) (a : Int) (ts : List Lexeme) (b : Int)
    (rest : List Lexeme) : Prop :=
  match tiers with
  | [] => a = b ∧ ts = rest
  | tier :: tighter => Extends version tier tighter a ts b rest

theorem EndsAt.mono {j k : Nat} {ts : List Lexeme} (h : EndsAt j ts) (le : j ≤ k) : EndsAt k ts :=
  fun o i next level => Nat.lt_of_lt_of_le (h o i next level) le

theorem endsAt_op {o : Op} {k : Nat} {ts : List Lexeme} (h : ∀ j, o.level? = some j → j < k) :
    EndsAt k (.op o :: ts) := by
  rintro o' j next level
  cases next
  exact h j level

theorem endsAt_nil {k : Nat} : EndsAt k [] :=
  nofun

theorem continues_stop {version : Option Int} {k : Nat} {a : Int} {ts : List Lexeme}
    (h : EndsAt k ts) : Continues version (levels.drop k) a ts a ts := by
  match at_level : levels.drop k with
  | [] => exact ⟨rfl, rfl⟩
  | tier :: tighter =>
    refine (extends_stop_iff fun o mem next => ?_).2 ⟨rfl, rfl⟩
    exact Nat.lt_irrefl k (h o k next ((mem_tier_iff at_level.symm).1 mem))

theorem reads_of_tighter {version : Option Int} {k : Nat} {a b : Int} {ts mid rest : List Lexeme}
    (inner : Reads version (levels.drop (k + 1)) ts a mid)
    (later : Continues version (levels.drop k) a mid b rest) :
    Reads version (levels.drop k) ts b rest := by
  match at_level : levels.drop k with
  | [] =>
    rw [at_level] at later
    obtain ⟨rfl, rfl⟩ := later
    rw [← List.tail_drop, at_level] at inner
    exact inner
  | tier :: tighter =>
    rw [at_level] at later
    rw [← tighter_eq_drop at_level.symm] at inner
    exact reads_tier_iff.2 ⟨a, mid, inner, later⟩

theorem continues_op {version : Option Int} {o : Op} {k : Nat} {a b c : Int}
    {ts mid rest : List Lexeme} (level : o.level? = some k) (ha : Fits a) (hb : Fits b)
    (applies : o.Applies a b) (fits : Fits (o.result a b))
    (operand : Reads version (levels.drop (k + 1)) ts b mid)
    (later : Continues version (levels.drop k) (o.result a b) mid c rest) :
    Continues version (levels.drop k) a (.op o :: ts) c rest := by
  match at_level : levels.drop k with
  | [] =>
    have above := six_le_of_no_tier at_level.symm
    have : k ≤ 5 := by cases o <;> cases level <;> decide
    omega
  | tier :: tighter =>
    rw [at_level] at later
    rw [← tighter_eq_drop at_level.symm] at operand
    refine (extends_op_iff ((mem_tier_iff at_level.symm).2 level)).2 ⟨b, mid, _, operand, ?_, later⟩
    exact (apply_eq_ok_iff level ha hb).2 ⟨applies, fits, rfl⟩

theorem reads_of_derives {version : Option Int64} {k : Nat} {ts : List Lexeme} {e : Tree}
    (derives : Derives k ts e) {a b : Int} (evaluates : Evaluates version e a)
    {rest left : List Lexeme} (next : EndsAt (k + 1) rest)
    (later : Continues (version.map Int64.toInt) (levels.drop k) a rest b left) :
    Reads (version.map Int64.toInt) (levels.drop k) (ts ++ rest) b left := by
  -- Whatever follows may continue the value: behind a left operand it is the rest of the tree.
  induction derives generalizing a b rest left with
  | @binary k o ts us l r level _ _ ihl ihr =>
    obtain - | - | - | ⟨value, operand, applies, fits⟩ := evaluates
    rw [List.append_assoc]
    refine ihl value (endsAt_op fun j same => ?_) ?_
    · rw [level] at same
      cases same
      exact Nat.lt_succ_self k
    · have reads := ihr operand (next.mono (Nat.le_succ _)) (continues_stop next)
      exact continues_op level value.fits operand.fits applies fits reads later
  | tighter _ ih =>
    exact reads_of_tighter (ih evaluates (next.mono (Nat.le_succ _)) (continues_stop next)) later
  | signed s _ ih =>
    obtain - | - | ⟨operand, fits⟩ := evaluates
    obtain ⟨rfl, rfl⟩ := later
    exact reads_sign_iff.2 ⟨_, ih operand next ⟨rfl, rfl⟩, fun _ => fits, rfl⟩
  | literal n =>
    obtain ⟨fits⟩ := evaluates
    exact reads_int_iff.2 later
  | version =>
    obtain - | ⟨rfl⟩ := evaluates
    obtain ⟨rfl, rfl⟩ := later
    exact reads_ident_iff.2 ⟨rfl, rfl, rfl⟩
  | group _ ih =>
    obtain ⟨rfl, rfl⟩ := later
    have closed : ∀ k, EndsAt k (.op .closing :: rest) := fun k => endsAt_op nofun
    rw [List.cons_append, List.append_assoc]
    exact reads_group_iff.2 (ih evaluates (closed 1) (continues_stop (closed 0)))

end Completeness

/-- All of some lexemes with their literals in range read to a value if and only if the grammar derives
a tree of them that evaluates to it. -/
theorem reads_all_iff {version : Option Int64} {ts : List Lexeme} (fit : LiteralsFit ts) {b : Int} :
    Reads (version.map Int64.toInt) levels ts b [] ↔
      ∃ e, Derives 0 ts e ∧ Evaluates version e b := by
  constructor
  · intro reads
    obtain ⟨us, e, rfl, derives, evaluates⟩ :=
      (read_sound_all version).1 levels ts 0 b [] rfl (by decide) fit reads
    rw [List.append_nil]
    exact ⟨e, derives, evaluates⟩
  · rintro ⟨e, derives, evaluates⟩
    have reads := reads_of_derives derives evaluates endsAt_nil (continues_stop endsAt_nil)
    rwa [List.append_nil] at reads

end ShaderPass.ConstExpr
