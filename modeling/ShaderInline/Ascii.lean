import ShaderInline.Text.Basic
import ShaderInline.Text.Char

/-! # Plain ASCII -/

namespace ShaderInline.Text

def stripNonAscii (t : Text) : Text := t.filter isAscii

end ShaderInline.Text
