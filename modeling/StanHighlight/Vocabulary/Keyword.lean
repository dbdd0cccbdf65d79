/-!
Words that the language itself gives a meaning, and words that it keeps from use.
Every list is closed: a word belongs to it only when it is spelled out there.
-/

namespace StanHighlight.Vocabulary

def controlKeywords : List String :=
  ["for", "in", "if", "else", "while", "break", "continue"]

/-- Types that open a variable declaration. -/
def storageTypes : List String :=
  ["int", "real", "complex", "vector", "row_vector", "matrix", "complex_vector",
   "complex_row_vector", "complex_matrix", "unit_vector", "simplex", "ordered",
   "positive_ordered", "cov_matrix", "corr_matrix", "cholesky_factor_corr",
   "cholesky_factor_cov", "array"]

def returnTypes : List String :=
  ["void", "int", "real", "complex", "vector", "row_vector", "matrix", "complex_vector",
   "complex_row_vector", "complex_matrix"]

/-- Keywords inside the angle brackets of a declared type, where `=` follows them. -/
def rangeKeywords : List String :=
  ["lower", "upper", "offset", "multiplier"]

/-- Further words that can name nothing: one stands for the absence of a type, the
others begin statements. -/
def statementKeywords : List String := ["void", "return", "print", "reject", "target"]

/-- Words that a program may not use: those of the language that models are compiled
to, and those kept for later use. -/
def reservedWords : List String :=
  ["alignas", "alignof", "and", "and_eq", "asm", "auto", "bitand", "bitor", "bool", "case",
   "catch", "char", "char16_t", "char32_t", "class", "compl", "const", "constexpr", "const_cast",
   "decltype", "default", "delete", "do", "double", "dynamic_cast", "enum", "explicit", "export",
   "extern", "float", "friend", "goto", "inline", "long", "mutable", "namespace", "new",
   "noexcept", "not", "not_eq", "nullptr", "operator", "or", "or_eq", "private", "protected",
   "public", "register", "reinterpret_cast", "short", "signed", "sizeof", "static",
   "static_assert", "static_cast", "struct", "switch", "template", "this", "thread_local",
   "throw", "try", "typedef", "typeid", "typename", "union", "unsigned", "using", "virtual",
   "volatile", "wchar_t", "xor", "xor_eq", "var", "fvar", "repeat", "until", "then", "true",
   "false", "STAN_MAJOR", "STAN_MINOR", "STAN_PATCH", "STAN_MATH_MAJOR", "STAN_MATH_MINOR",
   "STAN_MATH_PATCH"]

def isControlKeyword (word : String) : Bool := controlKeywords.contains word

def isStorageType (word : String) : Bool := storageTypes.contains word

def isRangeKeyword (word : String) : Bool := rangeKeywords.contains word

def isReserved (word : String) : Bool := reservedWords.contains word

/-- Whether a word has a meaning of its own and so cannot be the name in a declaration. -/
def isKeyword (word : String) : Bool :=
  isControlKeyword word || isStorageType word || statementKeywords.contains word

end StanHighlight.Vocabulary
