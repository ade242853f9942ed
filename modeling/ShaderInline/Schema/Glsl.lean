import ShaderInline.Schema.Basic

/-! # The schema for GLSL sources with `@import` directives -/

namespace ShaderInline.Schema

def glslTypes : List Text :=
  ["void", "bool", "int", "uint", "float", "double", "vec2", "vec3", "vec4", "ivec2", "ivec3",
    "ivec4", "uvec2", "uvec3", "uvec4", "bvec2", "bvec3", "bvec4", "dvec2", "dvec3", "dvec4",
    "mat2", "mat3", "mat4", "mat2x2", "mat2x3", "mat2x4", "mat3x2", "mat3x3", "mat3x4", "mat4x2",
    "mat4x3", "mat4x4", "sampler1D", "sampler2D", "sampler3D", "samplerCube", "sampler2DArray",
    "sampler2DShadow", "samplerCubeShadow", "isampler2D", "usampler2D", "sampler2DMS",
    "samplerBuffer", "image2D", "image3D", "uimage2D", "iimage2D"].map String.toList

def glslQualifiers : List Text :=
  ["in", "out", "inout", "uniform", "buffer", "shared", "const", "layout", "flat", "smooth",
    "noperspective", "centroid", "sample", "patch", "highp", "mediump", "lowp", "precision",
    "invariant", "precise", "coherent", "volatile", "restrict", "readonly", "writeonly",
    "attribute", "varying"].map String.toList

def glslControl : List Text :=
  ["if", "else", "for", "while", "do", "switch", "case", "default", "return", "break",
    "continue", "discard", "struct", "true", "false"].map String.toList

def importPattern : Pattern where
  name := "import".toList
  kind := .importDirective
  priority := 100
  matchers := [.tag (some "import".toList), .quoted]
  singleLine := true

def directivePattern : Pattern where
  name := "directive".toList
  kind := .directive
  priority := 50
  matchers := [.tag none, .restOfLine]
  singleLine := true

def functionPattern : Pattern where
  name := "function".toList
  kind := .function
  priority := 40
  matchers :=
    [.anyOf [.keyword "types".toList, .ident], .ident, .block (.block .paren),
      .block (.block .brace)]
  singleLine := false

def structPattern : Pattern where
  name := "struct".toList
  kind := .struct
  priority := 30
  matchers := [.word "struct".toList, .ident, .block (.block .brace)]
  singleLine := false

def glsl : Schema :=
  empty
    |>.addComment (.line "//".toList)
    |>.addComment (.block "/*".toList "*/".toList)
    |>.addTagMark '#'
    |>.addTagMark '@'
    |>.addKeywords "types".toList glslTypes
    |>.addKeywords "qualifiers".toList glslQualifiers
    |>.addKeywords "control".toList glslControl
    |>.addPattern importPattern
    |>.addPattern directivePattern
    |>.addPattern functionPattern
    |>.addPattern structPattern

end ShaderInline.Schema
