import JvmAssembler.Text.Numeral
import JvmAssembler.Text.Plain

/-! Text between double quotes, as it stands in messages: delimiters and common control characters
are escaped by a letter, other characters that are not plain by their code point. -/

namespace JvmAssembler.Text

/-- A character as it stands between double quotes. -/
def quoteChar (c : Char) : String :=
  match c with
  | '\x00' => "\\0"
  | '\t' => "\\t"
  | '\r' => "\\r"
  | '\n' => "\\n"
  | '"' => "\\\""
  | '\\' => "\\\\"
  | c => if isPlain c then c.toString else "\\u\x7b" ++ hexadecimal c.toNat ++ "\x7d"

def quoted (text : String) : String :=
  "\"" ++ text.toList.foldl (fun out c => out ++ quoteChar c) "" ++ "\""

end JvmAssembler.Text
