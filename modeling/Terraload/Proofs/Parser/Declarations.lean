import Terraload.Proofs.Hcl.Lines
import Terraload.Proofs.Parser.Agreement
/-!
A body of attributes and blocks, nested to any depth, is read from its lines as the object that it
stands for: nothing is lost and nothing is added.
-/
namespace Terraload.Parser

open Hcl (Decl)

variable {ds : List Decl} {s : List Char}

/-- Lines of attributes and blocks give an object with one member for each attribute, its value, and
one for each kind of block. That one is the list of the blocks of the kind in their order, each of
them its body inside of an object for each label. -/
theorem declarations_kept (hlines : Hcl.Lines ds s) (hc : Hcl.Compatible (Hcl.shares ds)) :
    hcl.parse (Encoding.encode (Text.ofChars s)) = .document (Hcl.document ds) ∧
      (Hcl.document ds).names.Nodup ∧
      (∀ n, n ∈ (Hcl.document ds).names ↔ ∃ d ∈ ds, n = Text.ofChars d.share.name) ∧
      (∀ k v, .attribute k v ∈ ds → (Hcl.document ds).get? (Text.ofChars k) = some v) ∧
      ∀ kind tags body, .block kind tags body ∈ ds →
        (Hcl.document ds).get? (Text.ofChars kind) =
          some (.list (ds.filterMap (Decl.ofKind? kind))) := by
  obtain ⟨body, hbody, hd⟩ := hlines.read hc
  exact ⟨hcl_of_body hbody hd, Hcl.nodup_names_gather _, fun n => Hcl.mem_names_document,
    fun k v h => Hcl.get?_attribute hc h, fun kind tags body h => Hcl.get?_block hc h⟩

def nested : List Decl :=
  [.attribute ['a'] (.integer 1),
    .block ['r'] [.quoted ['t', ' ', '1'], .word ['n']]
      [.attribute ['x'] (.list [.text (text "y"), .boolean true]), .block ['q'] [] []],
    .attribute ['b'] (.boolean false), .block ['r'] [] []]

def nestedText : List Char :=
  "a = 1\nr \"t 1\" n \x7b\n  x = [\"y\", true]\n\tq \x7b\n  \x7d\n\x7d\nb = false\nr \x7b\n\x7d\n".toList

def nestedDocument : Document :=
  [(text "a", .integer 1),
    (text "r", .list [
      .object [(text "t 1", .object [(text "n", .object [
        (text "x", .list [.text (text "y"), .boolean true]), (text "q", .list [.object []])])])],
      .object []]),
    (text "b", .boolean false)]

/-- A letter that stands alone is no word of the grammar. -/
theorem key_letter {x : Char} (hx : Hcl.nameStart x = true) : Hcl.Key [x] where
  isName := Hcl.isName_cons (by simpa using hx)
  notWord := by
    simp [Hcl.keyWords, Hcl.inWord, Hcl.forWord, Hcl.ifWord, Hcl.forEachWord, Hcl.elseWord,
      Hcl.endifWord, Hcl.endforWord]
  notConstant := by simp [Hcl.constant?]
  single := by simp

theorem lines_nested : Hcl.Lines nested nestedText := by
  have hy : ∀ x ∈ ['y'], Hcl.PlainChar x := by simp [Hcl.PlainChar]
  have hlist : Hcl.Plain (.list [.text (text "y"), .boolean true]) "[\"y\", true]".toList :=
    .list (.more (.text hy) (.last .yes))
  have htags : ∀ t ∈ [Hcl.Tag.quoted ['t', ' ', '1'], .word ['n']], t.Plain := by
    intro t ht
    simp only [List.mem_cons, List.not_mem_nil, or_false] at ht
    obtain rfl | rfl := ht
    · simp [Hcl.Tag.Plain, Hcl.PlainChar]
    · exact key_letter rfl
  have hinside : Hcl.Lines [.attribute ['x'] (.list [.text (text "y"), .boolean true]),
      .block ['q'] [] []] "  x = [\"y\", true]\n\tq \x7b\n  \x7d\n".toList :=
    .plain (w := [' ', ' ']) (by simp [Hcl.Indent]) (key_letter rfl) hlist
      (.block (w := ['\t']) (u := [' ', ' ']) (by simp [Hcl.Indent]) (key_letter rfl) (by simp) .nil
        (by decide) (by simp [Hcl.Indent]) .nil)
  exact .plain Hcl.indent_nil (key_letter rfl) (.integer 1 (by decide))
    (.block Hcl.indent_nil (key_letter rfl) htags hinside (by decide) Hcl.indent_nil
      (.plain Hcl.indent_nil (key_letter rfl) .no
        (.block Hcl.indent_nil (key_letter rfl) (by simp) .nil (by decide) Hcl.indent_nil .nil)))

theorem declarations_kept_on_sample :
    Hcl.Lines nested nestedText ∧ Hcl.Compatible (Hcl.shares nested) ∧
      Hcl.document nested = nestedDocument ∧
      hcl.parse (Encoding.encode (Text.ofChars nestedText)) = .document (Hcl.document nested) ∧
      (Hcl.document nested).names.Nodup ∧
      (∀ n, n ∈ (Hcl.document nested).names ↔ ∃ d ∈ nested, n = Text.ofChars d.share.name) ∧
      (∀ k v, .attribute k v ∈ nested → (Hcl.document nested).get? (Text.ofChars k) = some v) ∧
      ∀ kind tags body, .block kind tags body ∈ nested →
        (Hcl.document nested).get? (Text.ofChars kind) =
          some (.list (nested.filterMap (Decl.ofKind? kind))) := by
  have hc : Hcl.Compatible (Hcl.shares nested) := by decide
  exact ⟨lines_nested, hc, rfl, declarations_kept lines_nested hc⟩

end Terraload.Parser
