namespace LineMarkup

/-- Some constructs enclose text and are open for a while; the others, such as names, keywords and
numbers, are met in one piece. -/
inductive Construct
  | content
  | contentBlock
  | heading
  | emphasis
  | strong
  | link
  | raw
  | rawBlock
  | label
  | reference
  | listEntry
  | term
  | math
  | mathDelimiter
  | mathSymbol
  | mathFunction
  | mathChain
  | mathArguments
  | codeVariable
  | codeFunction
  | codeNumber
  | codeKeyword
  | codeLine
  | codeBlock
  | codeArguments
  | codeChain
  | codeString
  | commentLine
  | commentBlock
  | stringLiteral
deriving DecidableEq, Repr

namespace Construct

def all : List Construct :=
  [.content, .contentBlock, .heading, .emphasis, .strong, .link, .raw, .rawBlock, .label,
    .reference, .listEntry, .term, .math, .mathDelimiter, .mathSymbol, .mathFunction, .mathChain,
    .mathArguments, .codeVariable, .codeFunction, .codeNumber, .codeKeyword, .codeLine, .codeBlock,
    .codeArguments, .codeChain, .codeString, .commentLine, .commentBlock, .stringLiteral]

def name : Construct → String
  | .content => "Content"
  | .contentBlock => "ContentBlock"
  | .heading => "ContentHeading"
  | .emphasis => "ContentEmphasis"
  | .strong => "ContentStrongEmphasis"
  | .link => "ContentUrl"
  | .raw => "ContentRaw"
  | .rawBlock => "ContentRawBlock"
  | .label => "ContentLabel"
  | .reference => "ContentReference"
  | .listEntry => "ContentListEntry"
  | .term => "ContentTerm"
  | .math => "Math"
  | .mathDelimiter => "MathDelimiter"
  | .mathSymbol => "MathSymbolName"
  | .mathFunction => "MathFunctionName"
  | .mathChain => "MathExpressionChain"
  | .mathArguments => "MathArguments"
  | .codeVariable => "CodeVariableName"
  | .codeFunction => "CodeFunctionName"
  | .codeNumber => "CodeNumericLiteral"
  | .codeKeyword => "CodeKeyword"
  | .codeLine => "CodeLine"
  | .codeBlock => "CodeBlock"
  | .codeArguments => "CodeArguments"
  | .codeChain => "CodeExpressionChain"
  | .codeString => "CodeStringExpression"
  | .commentLine => "CommentLine"
  | .commentBlock => "CommentBlock"
  | .stringLiteral => "StringLiteral"

def ofName? (name : String) : Option Construct :=
  all.find? (fun construct => construct.name == name)

/-- Prose may stand directly in these. -/
def holdsContent : Construct → Bool
  | .content | .contentBlock | .heading | .emphasis | .strong => true
  | _ => false

def holdsMath : Construct → Bool
  | .math | .mathArguments => true
  | _ => false

def holdsCode : Construct → Bool
  | .codeBlock | .codeLine | .codeArguments => true
  | _ => false

def isCode : Construct → Bool
  | .codeBlock | .codeLine | .codeArguments | .codeVariable | .codeFunction | .codeNumber
  | .codeKeyword | .codeChain | .codeString => true
  | _ => false

/-- The end of the line ends these. -/
def endsWithLine : Construct → Bool
  | .commentLine | .heading | .link | .codeLine => true
  | _ => false

/-- An opening and a closing bracket enclose these. -/
def isDelimited : Construct → Bool
  | .contentBlock | .math | .mathArguments | .codeBlock | .codeArguments => true
  | _ => false

/-- The lines inside these are set one level deeper. -/
def isIndenting : Construct → Bool
  | .contentBlock | .codeBlock | .codeArguments | .mathArguments => true
  | _ => false

/-- The text of these runs from left to right in any language. -/
def isLeftLeaning : Construct → Bool
  | .codeBlock | .codeLine | .math | .raw | .rawBlock => true
  | _ => false

end Construct

end LineMarkup
