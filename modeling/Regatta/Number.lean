/-! Powers of two and ten, and the range of signed words of 64 bits. -/
namespace Regatta.Number

def twoTo (n : Nat) : Nat := Nat.pow 2 n

def tenTo (n : Nat) : Nat := Nat.pow 10 n

/-- What a signed word stays below: 2⁶³. -/
def wordLimit : Nat := twoTo 63

/-- How many words there are: 2⁶⁴. -/
def wordCount : Nat := twoTo 64

def leastWord : Int := -(wordLimit : Int)

def fitsWord (n : Int) : Bool := leastWord ≤ n && n < wordLimit

end Regatta.Number
