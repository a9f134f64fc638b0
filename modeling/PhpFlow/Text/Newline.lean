/-!
# Ends of lines

A line ends in a line feed, in a carriage return, or in both.
-/
namespace PhpFlow.Text

def unixLines : List Char → List Char
  | [] => []
  | '\r' :: '\n' :: cs => '\n' :: unixLines cs
  | '\r' :: cs => '\n' :: unixLines cs
  | c :: cs => c :: unixLines cs

def dropReturns : List Char → List Char
  | [] => []
  | '\r' :: '\n' :: cs => '\n' :: dropReturns cs
  | c :: cs => c :: dropReturns cs

end PhpFlow.Text
