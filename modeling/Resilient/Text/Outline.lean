/-!
# Outlines

An outline is the written shape of a nested value: tags around a body, sequences in brackets and
mappings in braces. `Outline.inline` writes it on one line, `Outline.block` gives each part a line
of its own, four blanks deeper than what it belongs to and with a comma behind it.
-/

namespace Resilient

/-- The written shape of a nested value. -/
inductive Outline where
  /-- Text without parts. -/
  | leaf (text : String)
  /-- A tag around a body. -/
  | tagged (tag : String) (body : Outline)
  /-- Items in brackets. -/
  | sequence (items : List Outline)
  /-- Keys, as they are written, with their parts in braces. -/
  | mapping (entries : List (String × Outline))

namespace Outline

mutual

/-- The outline on one line, behind what is already written. -/
def inlineOnto (written : String) : Outline → String
  | leaf text => written ++ text
  | tagged tag body => inlineOnto (written ++ tag ++ "(") body ++ ")"
  | sequence items => inlineItems (written ++ "[") items ++ "]"
  | mapping entries => inlineEntries (written ++ "\x7b") entries ++ "\x7d"

/-- Items behind what is already written, with commas between them. -/
def inlineItems (written : String) : List Outline → String
  | [] => written
  | [item] => inlineOnto written item
  | item :: items => inlineItems (inlineOnto written item ++ ", ") items

/-- Entries behind what is already written, with commas between them. -/
def inlineEntries (written : String) : List (String × Outline) → String
  | [] => written
  | [(key, part)] => inlineOnto (written ++ key ++ ": ") part
  | (key, part) :: entries =>
    inlineEntries (inlineOnto (written ++ key ++ ": ") part ++ ", ") entries

end

/-- The blanks before a line at a depth. -/
def margin (depth : Nat) : String := String.ofList (List.replicate (4 * depth) ' ')

mutual

/-- The outline in lines behind what is already written; its first line is begun already. -/
def blockOnto (depth : Nat) (written : String) : Outline → String
  | leaf text => written ++ text
  | tagged tag body =>
    blockOnto (depth + 1) (written ++ tag ++ "(\n" ++ margin (depth + 1)) body
      ++ ",\n" ++ margin depth ++ ")"
  | sequence [] => written ++ "[]"
  | sequence items => blockItems (depth + 1) (written ++ "[\n") items ++ margin depth ++ "]"
  | mapping [] => written ++ "\x7b\x7d"
  | mapping entries =>
    blockEntries (depth + 1) (written ++ "\x7b\n") entries ++ margin depth ++ "\x7d"

/-- Items behind what is already written, a line each. -/
def blockItems (depth : Nat) (written : String) : List Outline → String
  | [] => written
  | item :: items =>
    blockItems depth (blockOnto depth (written ++ margin depth) item ++ ",\n") items

/-- Entries behind what is already written, a line each. -/
def blockEntries (depth : Nat) (written : String) : List (String × Outline) → String
  | [] => written
  | (key, part) :: entries =>
    blockEntries depth
      (blockOnto depth (written ++ margin depth ++ key ++ ": ") part ++ ",\n") entries

end

/-- The outline on one line. -/
def inline (o : Outline) : String := inlineOnto "" o

/-- The outline with a line for each part. -/
def block (o : Outline) : String := blockOnto 0 "" o

end Outline

end Resilient
