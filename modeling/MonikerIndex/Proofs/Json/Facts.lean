import MonikerIndex.Proofs.Disk
import MonikerIndex.Proofs.Json.Decoding

/-!
# Facts files read back

Each record of a program is read back from its written form, from positions up to the program
itself. A field that may be left out is always written, with null for none, so no default takes
the place of a value.
-/

namespace MonikerIndex

open Decoder (optional_ofOption list_ofList oneOf_text)

/-! ### Words -/

theorem SymbolKind.lookup_word (kind : SymbolKind) :
    SymbolKind.words.lookup kind.word = some kind := by
  cases kind <;> rfl

theorem DocumentKind.lookup_word (kind : DocumentKind) :
    DocumentKind.words.lookup kind.word = some kind := by
  cases kind <;> rfl

theorem SymbolScope.lookup_word (scope : SymbolScope) :
    SymbolScope.words.lookup scope.word = some scope := by
  cases scope <;> rfl

theorem ExportForm.lookup_word (form : ExportForm) :
    ExportForm.words.lookup form.word = some form := by
  cases form <;> rfl

/-! ### Records -/

@[simp] theorem Position.decoder_toJson (position : Position) :
    Position.decoder (.ofJson position.toJson) = .ok position := by
  simp [Position.toJson, Position.decoder, Position.fields]

@[simp] theorem Span.decoder_toJson (span : Span) :
    Span.decoder (.ofJson span.toJson) = .ok span := by
  simp [Span.toJson, Span.decoder, Span.fields]

@[simp] theorem Span.optional_toJson (span? : Option Span) :
    Decoder.optional Span.decoder (.ofJson (Json.ofOption Span.toJson span?)) = .ok span? :=
  optional_ofOption Span.decoder_toJson (fun _ => by simp [Span.toJson]) span?

@[simp] theorem Decoder.optional_text (text? : Option String) :
    Decoder.optional Decoder.text (.ofJson (Json.ofOption .text text?)) = .ok text? :=
  optional_ofOption (fun _ => rfl) (fun _ => by simp) text?

@[simp] theorem Decoder.optional_word32 (n? : Option UInt32) :
    Decoder.optional Decoder.word32 (.ofJson (Json.ofOption (fun n => .nat n.toNat) n?)) =
      .ok n? :=
  optional_ofOption Decoder.word32_nat (fun _ => by simp) n?

theorem Decoder.optional_oneOf {α : Type} {words : List (String × α)} {word : α → String}
    (h : ∀ value, words.lookup (word value) = some value) (value? : Option α) :
    Decoder.optional (Decoder.oneOf words)
      (.ofJson (Json.ofOption (fun value => .text (word value)) value?)) = .ok value? :=
  optional_ofOption (fun value => oneOf_text (h value)) (fun _ => by simp) value?

theorem Document.decoder_toJson (document : Document) :
    Document.decoder (.ofJson document.toJson) = .ok document := by
  simp [Document.toJson, Document.decoder, Document.fields,
    Decoder.optional_oneOf DocumentKind.lookup_word]

theorem Declaration.decoder_toJson (declaration : Declaration) :
    Declaration.decoder (.ofJson declaration.toJson) = .ok declaration := by
  simp [Declaration.toJson, Declaration.decoder, Declaration.fields,
    Decoder.optional_oneOf SymbolKind.lookup_word]

theorem Symbol.decoder_toJson (symbol : Symbol) :
    Symbol.decoder (.ofJson symbol.toJson) = .ok symbol := by
  simp [Symbol.toJson, Symbol.decoder, Symbol.fields,
    oneOf_text (SymbolKind.lookup_word _), oneOf_text (SymbolScope.lookup_word _),
    Decoder.optional_oneOf ExportForm.lookup_word,
    list_ofList fun declaration _ => Declaration.decoder_toJson declaration]

theorem Reference.decoder_toJson (reference : Reference) :
    Reference.decoder (.ofJson reference.toJson) = .ok reference := by
  simp [Reference.toJson, Reference.decoder, Reference.fields]

theorem Alias.decoder_toJson (aliasFact : Alias) :
    Alias.decoder (.ofJson aliasFact.toJson) = .ok aliasFact := by
  simp [Alias.toJson, Alias.decoder, Alias.fields]

theorem Program.decoder_toJson (program : Program) :
    Program.decoder (.ofJson program.toJson) = .ok program := by
  simp [Program.toJson, Program.decoder, Program.fields,
    list_ofList fun document _ => Document.decoder_toJson document,
    list_ofList fun symbol _ => Symbol.decoder_toJson symbol,
    list_ofList fun reference _ => Reference.decoder_toJson reference,
    list_ofList fun aliasFact _ => Alias.decoder_toJson aliasFact]

/-! ### Bounds -/

@[simp] theorem Position.bounded_toJson (position : Position) : position.toJson.Bounded := by
  simp [Position.toJson]

@[simp] theorem Span.bounded_toJson (span : Span) : span.toJson.Bounded := by
  simp [Span.toJson]

theorem Document.bounded_toJson (document : Document) : document.toJson.Bounded := by
  simp [Document.toJson]

theorem Declaration.bounded_toJson (declaration : Declaration) : declaration.toJson.Bounded := by
  simp [Declaration.toJson]

theorem Symbol.bounded_toJson (symbol : Symbol) : symbol.toJson.Bounded := by
  simp [Symbol.toJson, Json.ofList, Declaration.bounded_toJson]

theorem Reference.bounded_toJson (reference : Reference) : reference.toJson.Bounded := by
  simp [Reference.toJson]

theorem Alias.bounded_toJson (aliasFact : Alias) : aliasFact.toJson.Bounded := by
  simp [Alias.toJson]

theorem Program.bounded_toJson (program : Program) : program.toJson.Bounded := by
  simp [Program.toJson, Json.ofList, Document.bounded_toJson, Symbol.bounded_toJson,
    Reference.bounded_toJson, Alias.bounded_toJson]

/-! ### Whole files -/

theorem Program.parse_of_written {program : Program} {chars : List Char}
    (h : Json.Written program.toJson chars) :
    Program.parse (String.ofList chars) = .ok program := by
  have hpage := Page.decode_of_written h Json.blank_nil program.decoder_toJson
  rw [List.append_nil] at hpage
  rw [Program.parse, hpage]

theorem fromUTF8?_toUTF8 (s : String) : String.fromUTF8? s.toUTF8 = some s :=
  dif_pos s.isValidUTF8

theorem Program.written_render (program : Program) :
    Json.Written program.toJson program.render.toList := by
  rw [Program.render, Json.pretty, String.toList_ofList]
  exact Json.written_prettyChars 0 program.toJson program.bounded_toJson

/-- A program is read back from its facts file, whether from the text, from its bytes or from a
    directory that it was written to. -/
theorem Program.parse_render (program : Program) :
    Program.parse program.render = .ok program ∧
      Program.ofBytes program.render.toUTF8 = .ok program ∧
      ∀ (directory directory' : Directory) (path : String),
        directory.write path program.render = .ok directory' →
          ∃ text, directory'.read path = .ok text ∧ Program.parse text = .ok program := by
  have hparse : Program.parse program.render = .ok program := by
    have h := Program.parse_of_written program.written_render
    rwa [String.ofList_toList] at h
  refine ⟨hparse, ?_, ?_⟩
  · rw [Program.ofBytes, fromUTF8?_toUTF8]
    exact hparse
  · intro directory directory' path hwrite
    exact ⟨program.render, Directory.read_of_write hwrite, hparse⟩

/-- A program whose texts need every kind of escape, with fields present and absent and with empty
    and long lists. -/
def Program.awkward : Program where
  root := "/p \\ \"q\"\n\t\r\x08\x0c\x01\x1f\x7f/é/𝄞"
  documents := [.moduleFile "a.ts", ⟨"", some .declaration, false⟩]
  symbols :=
    [{ handle := 4294967295, name := none, kind := .signature },
      { handle := 0, name := some "", kind := .enumMember, parent := some 4294967295,
        scope := .confined, exportForm := some .assignment,
        declarations :=
          [{ file := "a.ts", span := ⟨⟨0, 0⟩, ⟨4294967295, 1⟩⟩ },
            { file := "a.ts", span := ⟨⟨2, 0⟩, ⟨2, 9⟩⟩, fullSpan := some ⟨⟨2, 0⟩, ⟨7, 1⟩⟩,
              exported := true, kind := some .typeAlias, text := some "null" }] }]
  references := []
  aliases := [⟨"a.ts", ⟨⟨1, 1⟩, ⟨1, 2⟩⟩, none, "=", 0⟩]

theorem Program.parse_render_awkward :
    Directory.write {} "./a.json" awkward.render = .ok ⟨[(["a.json"], awkward.render)]⟩ ∧
      ∃ text, Directory.read ⟨[(["a.json"], awkward.render)]⟩ "./a.json" = .ok text ∧
        Program.parse text = .ok awkward :=
  ⟨rfl, (Program.parse_render awkward).2.2 {} _ "./a.json" rfl⟩

end MonikerIndex
