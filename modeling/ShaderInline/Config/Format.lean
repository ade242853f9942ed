import ShaderInline.Config.Json
import ShaderInline.Config.Toml
import ShaderInline.Config.Yaml

/-! # Formats of configuration files -/

namespace ShaderInline

inductive ConfigFormat where
  | json
  | toml
  | yaml
  deriving DecidableEq, Repr

namespace ConfigFormat

def ofExtension? (ext : Text) : Option ConfigFormat :=
  if ext = "json".toList then some .json
  else if ext = "toml".toList then some .toml
  else if ext = "yaml".toList || ext = "yml".toList then some .yaml
  else none

/-- The file that a new configuration is written to. -/
def defaultFile : ConfigFormat → Text
  | json => ".splicerc.json".toList
  | toml => ".splicerc.toml".toList
  | yaml => "splice.yaml".toList

end ConfigFormat

namespace Config

def parse? : ConfigFormat → Text → Option Config
  | .json => parseJson?
  | .toml => parseToml?
  | .yaml => parseYaml?

def render : ConfigFormat → Config → Text
  | .json => renderJson
  | .toml => renderToml
  | .yaml => renderYaml

end Config
end ShaderInline
