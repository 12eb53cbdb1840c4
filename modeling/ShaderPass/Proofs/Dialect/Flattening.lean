import ShaderPass.Proofs.Declaration.Members
import ShaderPass.Proofs.Dialect.Transcoding

/-! A uniform block becomes a list of single uniforms, and no member is lost that the text uses outside
the block. -/
namespace ShaderPass

open Token Text Compile FunctionDef

namespace Declaration

variable {t : Text} {d : Declaration} {m : Member}

theorem HasMember.standsAt (h : HasMember t d m) : IsWord m.name.toList ∧
    ∃ n, StandsAt t m.name.toList n ∧ d.start ≤ n ∧ n + byteLen m.name.toList ≤ d.stop := by
  obtain ⟨front, sep, stretch, stop, later, cut, -, -, inside, declares⟩ := h
  obtain ⟨k, hk, identifier, named⟩ := exists_of_mem_wordsOf declares.name_mem
  obtain ⟨isName, stands⟩ := isName_of_isIdentifier (by rw [cut]; simp [hk]) identifier
  obtain ⟨-, start, stop⟩ := inside k hk
  have lexeme : m.name.toList = k.lexeme := by rw [named, Token.name, String.toList_ofList]
  rw [lexeme]
  exact ⟨isName.isWord, k.start, stands, start, stop⟩

end Declaration

namespace Legacy

open Declaration

/-- Whether a name stands as a whole word in a text, and not in the range of a declaration. -/
def UsedOutside (t : Text) (d : Declaration) (name : String) : Prop :=
  ∃ n, StandsAt t name.toList n ∧ (n < d.start ∨ d.stop < n + byteLen name.toList)

def uniformLine (m : Member) : Text :=
  joinWith [' '] (declaration "uniform" m.precision m.type m.name) ++ (lengthSuffix m.arraySize ++ [';'])

section Flattening

variable {t : Text} {stage : Stage} {ds : List Declaration} {d : Declaration} {m : Member} {r s : Report}

theorem one_lt_countWord_of_usedOutside (declared : HasMember t d m) (used : UsedOutside t d m.name) :
    1 < countWord t m.name.toList := by
  obtain ⟨isWord, n, own, start, stop⟩ := declared.standsAt
  obtain ⟨n', other, outside⟩ := used
  exact one_lt_countWord isWord own other (by omega)

/-- A block is replaced by a line for each of some members, as they are written, and all members are
among them that are used outside the block. -/
theorem flattenBlock_keeps_used (extracted : (extract t stage (find t)).runWith r = (.ok ds, s))
    (reported : d ∈ ds) (block : d.category = .block) :
    replacement? t d = some (flattenBlock t d.descriptor) ∧
      ∃ kept : List Member, kept.Sublist d.descriptor.members ∧
        (flattenBlock t d.descriptor).toList = List.intercalate ['\n'] (kept.map uniformLine) ∧
        (∀ m ∈ kept, HasMember t d m) ∧
        ∀ m ∈ d.descriptor.members, UsedOutside t d m.name → m ∈ kept := by
  have value := (composed_extractFrom t stage (find t) [] [] (significant t)).outcome_of_ok extracted
  have declared (m : Member) (member : m ∈ d.descriptor.members) : HasMember t d m :=
    (run_of_outcome value).hasMember reported member
  refine ⟨by rw [replacement?, block], d.descriptor.members.filter fun m => countWord t m.name.toList > 1,
    List.filter_sublist, ?_, fun m kept => declared m (List.mem_of_mem_filter kept),
    fun m member used => ?_⟩
  · rw [toList_flattenBlock]
    exact congrArg _ (List.map_congr_left fun m _ => toList_memberLine m)
  · exact List.mem_filter.2
      ⟨member, decide_eq_true (one_lt_countWord_of_usedOutside (declared m member) used)⟩

def lights : Text :=
  ("uniform Lights \x7b highp vec4 a[2]; vec4 b; vec4 c; \x7d;\n" ++
    "vec4 f() \x7b return a[0] + c; \x7d").toList

theorem flattenBlock_keeps_used_of_lights : ∃ ds s d,
    (extract lights .fragment (find lights)).runWith {} = (.ok ds, s) ∧ d ∈ ds ∧ d.category = .block ∧
      ∃ kept : List Member, kept.Sublist d.descriptor.members ∧
        (flattenBlock lights d.descriptor).toList = List.intercalate ['\n'] (kept.map uniformLine) ∧
        ∃ m ∈ kept, m.name = "a" ∧ uniformLine m = "uniform highp vec4 a[2];".toList := by
  have read : ((extract lights .fragment (find lights)).runWith {}).1.toOption.map (fun ds =>
      ds.map fun d => (d.stop, d.category, d.descriptor.members.take 1)) =
        some [(52, .block, [⟨"a", "vec4", some "highp", some "2", 2⟩])] := by decide +kernel
  rcases extracted : (extract lights .fragment (find lights)).runWith {} with ⟨result, s⟩
  rw [extracted] at read
  cases result with
  | error failure => cases read
  | ok ds =>
    obtain ⟨d, rfl, shape⟩ := List.map_eq_singleton_iff.1 (Option.some.inj read)
    obtain ⟨stop, block, members⟩ : _ ∧ _ ∧ _ := by simpa only [Prod.mk.injEq] using shape
    have first : ⟨"a", "vec4", some "highp", some "2", 2⟩ ∈ d.descriptor.members :=
      List.mem_of_mem_take (members ▸ List.mem_cons_self)
    obtain ⟨-, kept, part, text, -, used⟩ :=
      flattenBlock_keeps_used extracted List.mem_cons_self block
    refine ⟨[d], s, d, rfl, List.mem_cons_self, block, kept, part, text, _, used _ first ?_, rfl,
      by decide +kernel⟩
    refine ⟨71, ⟨lights.take 71, lights.drop 72, by decide +kernel, by decide +kernel, by decide +kernel,
      by decide +kernel⟩, Or.inr ?_⟩
    rw [stop]
    decide +kernel

end Flattening

end Legacy
end ShaderPass
